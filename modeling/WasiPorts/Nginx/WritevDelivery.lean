import WasiPorts.Nginx.Writev

/-!
# An output chain is delivered once and in order

Over any number of calls of `ngx_writev_chain`, each with the chain the previous one returned, the
socket has accepted a prefix of the bytes of the chain and the chain at hand holds the rest.

* `Coalesce.Describes` — the vector is a prefix of the bytes of the chain.
* `writeOnce_spec`, `ngxWritev_spec` — what one `ngx_writev` sends, on either path.
* `ngxWritevChain_spec`, `ngxWritevChain_isSome` — one call: what it sends, and that it returns.
* `chain_delivered` — every session.
-/

namespace WasiPorts.Nginx

open WasiPorts.Memory

variable (mem : Nat → Byte)

/-! ## The bytes of a chain -/

def bufBytes (b : Buf) : List Byte :=
  if ngxBufInMemory b then load mem b.pos (b.last - b.pos) else []

def chainBytes (chain : List Buf) : List Byte := chain.flatMap (bufBytes mem)

/-- A buffer that `ngx_http_write_filter` lets through, other than a file. -/
def Buf.Sendable (b : Buf) : Prop :=
  ngxBufSpecial b = true ∨ ngxBufInMemory b = true ∧ b.inFile = false ∧ b.pos < b.last

/-- Special buffers and non-empty buffers in memory. -/
def Sendable (chain : List Buf) : Prop := ∀ b ∈ chain, b.Sendable

instance (b : Buf) : Decidable b.Sendable := inferInstanceAs (Decidable (_ ∨ _))

instance (chain : List Buf) : Decidable (Sendable chain) :=
  inferInstanceAs (Decidable (∀ b ∈ chain, _))

variable {mem} {b : Buf} {chain : List Buf}

theorem bufBytes_special (h : ngxBufSpecial b = true) : bufBytes mem b = [] := by
  have hmem : ngxBufInMemory b = false := by
    unfold ngxBufSpecial at h
    simp only [Bool.and_eq_true, Bool.not_eq_true'] at h
    exact h.1.2
  simp [bufBytes, hmem]

theorem Buf.Sendable.inMemory (h : b.Sendable) (hs : ngxBufSpecial b ≠ true) :
    ngxBufInMemory b = true ∧ b.inFile = false ∧ b.pos < b.last :=
  h.resolve_left hs

theorem Sendable.head (h : Sendable (b :: chain)) : b.Sendable := h b List.mem_cons_self

theorem Sendable.tail (h : Sendable (b :: chain)) : Sendable chain :=
  fun b' hb' => h b' (List.mem_cons_of_mem b hb')

@[simp] theorem chainBytes_nil : chainBytes mem [] = [] := rfl

@[simp] theorem chainBytes_cons : chainBytes mem (b :: chain) = bufBytes mem b ++ chainBytes mem chain :=
  List.flatMap_cons

/-- Taking what was sent off a chain. -/
theorem ngxChainUpdateSent_spec (mem : Nat → Byte) (h : Sendable chain) (sent : Nat)
    (hle : sent ≤ (chainBytes mem chain).length) :
    Sendable (ngxChainUpdateSent chain sent) ∧
      chainBytes mem (ngxChainUpdateSent chain sent) = (chainBytes mem chain).drop sent := by
  induction chain generalizing sent with
  | nil => exact ⟨h, (List.drop_nil).symm⟩
  | cons b chain ih =>
      rw [chainBytes_cons] at hle ⊢
      unfold ngxChainUpdateSent
      split
      · next hs =>
          rw [bufBytes_special hs, List.nil_append] at hle ⊢
          exact ih h.tail sent hle
      · next hs =>
          obtain ⟨hmem, hfile, hlt⟩ := h.head.inMemory hs
          have hsize : ngxBufSize b = b.last - b.pos := if_pos hmem
          have hbytes : bufBytes mem b = load mem b.pos (b.last - b.pos) := if_pos hmem
          have hlen : (bufBytes mem b).length = ngxBufSize b := by rw [hbytes, hsize, load_length]
          split
          · next h0 =>
              subst h0
              exact ⟨h, by rw [chainBytes_cons, List.drop_zero]⟩
          · split
            · next hfull =>
                rw [List.length_append, hlen] at hle
                obtain ⟨hsend, heq⟩ := ih h.tail (sent - ngxBufSize b) (by omega)
                refine ⟨hsend, ?_⟩
                have hnone : (bufBytes mem b).drop sent = [] := List.drop_of_length_le (by omega)
                rw [heq, List.drop_append, hlen, hnone, List.nil_append]
            · next hpart =>
                -- the cut is inside this buffer
                have hadv : (b.advance sent).pos = b.pos + sent := if_pos hmem
                have hmem' : ngxBufInMemory (b.advance sent) = true := hmem
                have hbytes' : bufBytes mem (b.advance sent) = (bufBytes mem b).drop sent := by
                  rw [hbytes, drop_load mem b.pos (by omega), bufBytes, if_pos hmem', hadv]
                  show load mem _ (b.last - (b.pos + sent)) = _
                  rw [Nat.sub_sub]
                constructor
                · intro b' hb'
                  obtain rfl | hb' := List.mem_cons.mp hb'
                  · refine .inr ⟨hmem', hfile, ?_⟩
                    show (b.advance sent).pos < b.last
                    omega
                  · exact h.tail b' hb'
                · rw [chainBytes_cons, hbytes',
                    List.drop_append_of_le_length (by omega)]

/-- A chain starts with something to send after an update. -/
theorem ngxChainUpdateSent_head {sent : Nat} {rest : List Buf}
    (h : ngxChainUpdateSent chain sent = b :: rest) : ngxBufSpecial b ≠ true := by
  induction chain generalizing sent with
  | nil => cases h
  | cons b' chain ih =>
      unfold ngxChainUpdateSent at h
      split at h
      · exact ih h
      · next hs =>
          split at h
          · cases h
            exact hs
          · split at h
            · exact ih h
            · cases h
              exact hs

theorem ngxChainUpdateSent_eq_nil {sent : Nat} (h : Sendable (ngxChainUpdateSent chain sent))
    (hbytes : chainBytes mem (ngxChainUpdateSent chain sent) = []) :
    ngxChainUpdateSent chain sent = [] := by
  cases hrest : ngxChainUpdateSent chain sent with
  | nil => rfl
  | cons b rest =>
      rw [hrest] at h hbytes
      obtain ⟨hmem, -, hlt⟩ := h.head.inMemory (ngxChainUpdateSent_head hrest)
      have hlen : (bufBytes mem b).length = b.last - b.pos := by
        rw [bufBytes, if_pos hmem, load_length]
      rw [chainBytes_cons, List.append_eq_nil_iff] at hbytes
      rw [hbytes.1, List.length_nil] at hlen
      omega

/-! ## The vector -/

/-- The vector describes `xs`. -/
structure Coalesce.Describes (mem : Nat → Byte) (v : Coalesce) (xs : List Byte) : Prop where
  bytes : piecesBytes mem v.iovs.reverse = xs
  total : v.total = xs.length
  prev : ∀ p, v.prev = some p → ∃ iov iovs, v.iovs = iov :: iovs ∧ iov.base + iov.len = p

variable {v : Coalesce} {xs : List Byte}

theorem Coalesce.Describes.start (mem : Nat → Byte) : Coalesce.start.Describes mem [] :=
  ⟨rfl, rfl, nofun⟩

theorem piecesBytes_append (as bs : List Iovec) :
    piecesBytes mem (as ++ bs) = piecesBytes mem as ++ piecesBytes mem bs :=
  List.flatMap_append

theorem piecesBytes_singleton (iov : Iovec) :
    piecesBytes mem [iov] = load mem iov.base iov.len := by
  simp [piecesBytes]

theorem Coalesce.Describes.push (h : v.Describes mem xs) (pos n : Nat) :
    (v.push pos n).Describes mem (xs ++ load mem pos n) := by
  refine ⟨?_, ?_, ?_⟩
  · show piecesBytes mem (List.reverse (⟨pos, n⟩ :: v.iovs)) = _
    rw [List.reverse_cons, piecesBytes_append, h.bytes, piecesBytes_singleton]
  · show v.total + n = _
    rw [h.total, List.length_append, load_length]
  · intro p hp
    exact ⟨⟨pos, n⟩, v.iovs, rfl, Option.some.inj hp⟩

/-- A piece that ends where the buffer starts grows by the buffer. -/
theorem Coalesce.Describes.grow (h : v.Describes mem xs) {pos : Nat} (hprev : v.prev = some pos)
    (n : Nat) : (v.grow pos n).Describes mem (xs ++ load mem pos n) := by
  obtain ⟨iov, iovs, hiovs, hend⟩ := h.prev pos hprev
  have hgrow : (v.grow pos n).iovs = { iov with len := iov.len + n } :: iovs := by
    unfold Coalesce.grow
    rw [hiovs]
  refine ⟨?_, ?_, ?_⟩
  · rw [hgrow, ← h.bytes, hiovs, List.reverse_cons, List.reverse_cons, piecesBytes_append,
      piecesBytes_append, piecesBytes_singleton, piecesBytes_singleton, load_add, hend,
      List.append_assoc]
  · show v.total + n = _
    rw [h.total, List.length_append, load_length]
  · intro p hp
    obtain rfl : pos + n = p := Option.some.inj hp
    refine ⟨_, _, hgrow, ?_⟩
    show iov.base + (iov.len + n) = pos + n
    omega

theorem ngxOutputChainToIovec_full {nalloc limit : Nat} (h : limit ≤ v.total) :
    ngxOutputChainToIovec nalloc limit chain v = some (v, chain) := by
  cases chain with
  | nil => rfl
  | cons b chain =>
      unfold ngxOutputChainToIovec
      rw [if_neg (by omega)]

/-- `ngx_output_chain_to_iovec` of a chain without file buffers: the vector is extended by a
prefix of the bytes of the chain, within the limit. -/
theorem ngxOutputChainToIovec_spec (nalloc : Nat) {limit : Nat} (h : Sendable chain)
    (hv : v.Describes mem xs) (hle : v.total ≤ limit) :
    ∃ v' cl k, ngxOutputChainToIovec nalloc limit chain v = some (v', cl) ∧ cl <:+ chain ∧
      v'.Describes mem (xs ++ (chainBytes mem chain).take k) ∧ k ≤ (chainBytes mem chain).length ∧
      v'.total ≤ limit ∧
      (v.iovs = [] → v.total < limit → 0 < nalloc → chainBytes mem chain ≠ [] → 0 < k) := by
  induction chain generalizing v xs with
  | nil => exact ⟨v, [], 0, rfl, List.suffix_refl _, by simpa using hv, Nat.le_refl _, hle, by simp⟩
  | cons b chain ih =>
      have hstop : ∃ v' cl k, some (v, b :: chain) = some (v', cl) ∧ cl <:+ b :: chain ∧
          v'.Describes mem (xs ++ (chainBytes mem (b :: chain)).take k) ∧
          k ≤ (chainBytes mem (b :: chain)).length ∧ v'.total ≤ limit ∧ k = 0 :=
        ⟨v, b :: chain, 0, rfl, List.suffix_refl _, by simpa using hv, Nat.zero_le _, hle, rfl⟩
      unfold ngxOutputChainToIovec
      split
      · next hlt =>
          split
          · next hs =>
              obtain ⟨v', cl, k, heq, hcl, hv', hk, hle', hpos⟩ := ih h.tail hv hle
              rw [chainBytes_cons, bufBytes_special hs, List.nil_append]
              exact ⟨v', cl, k, heq, hcl.trans (List.suffix_cons b chain), hv', hk, hle', hpos⟩
          · next hs =>
              obtain ⟨hmem, hfile, hne⟩ := h.head.inMemory hs
              rw [if_neg (by simp [hfile]), if_neg (by simp [hmem])]
              have hbytes : bufBytes mem b = load mem b.pos (b.last - b.pos) := if_pos hmem
              generalize hsize : min (b.last - b.pos) (limit - v.total) = size
              have hspos : 0 < size := by omega
              have hsle : size ≤ b.last - b.pos := by omega
              have htake : (bufBytes mem b).take size = load mem b.pos size := by
                rw [hbytes, take_load mem b.pos hsle]
              -- the vector extended by this buffer, as far as the limit allows
              have hnext : ∀ v₁ : Coalesce, v₁.Describes mem (xs ++ load mem b.pos size) →
                  v₁.total = v.total + size →
                  ∃ v' cl k, ngxOutputChainToIovec nalloc limit chain v₁ = some (v', cl) ∧
                    cl <:+ b :: chain ∧
                    v'.Describes mem (xs ++ (chainBytes mem (b :: chain)).take k) ∧
                    k ≤ (chainBytes mem (b :: chain)).length ∧ v'.total ≤ limit ∧ 0 < k := by
                intro v₁ hv₁ htotal
                have hlen : (bufBytes mem b).length = b.last - b.pos := by rw [hbytes, load_length]
                by_cases hcut : size = b.last - b.pos
                · obtain ⟨v', cl, k, heq, hcl, hv', hk, hle', -⟩ := ih h.tail hv₁ (by omega)
                  refine ⟨v', cl, size + k, heq, hcl.trans (List.suffix_cons b chain), ?_, ?_, hle',
                    by omega⟩
                  · have hall : (chainBytes mem (b :: chain)).take (size + k) =
                        load mem b.pos size ++ (chainBytes mem chain).take k := by
                      rw [chainBytes_cons, List.take_append, hlen, List.take_of_length_le (by omega),
                        hbytes, hcut, Nat.add_sub_cancel_left]
                    rw [hall, ← List.append_assoc]
                    exact hv'
                  · rw [chainBytes_cons, List.length_append, hlen]
                    omega
                · rw [ngxOutputChainToIovec_full (by omega)]
                  refine ⟨v₁, chain, size, rfl, List.suffix_cons b chain, ?_, ?_, by omega, hspos⟩
                  · rw [chainBytes_cons, List.take_append_of_le_length (by omega), htake]
                    exact hv₁
                  · rw [chainBytes_cons, List.length_append, hlen]
                    omega
              dsimp only
              split
              · next hprev =>
                  obtain ⟨v', cl, k, heq, hcl, hv', hk, hle', hpos⟩ :=
                    hnext _ (hv.grow hprev size) rfl
                  exact ⟨v', cl, k, heq, hcl, hv', hk, hle', fun _ _ _ _ => hpos⟩
              · split
                · next hfull =>
                    obtain ⟨v', cl, k, heq, hcl, hv', hk, hle', -⟩ := hstop
                    refine ⟨v', cl, k, heq, hcl, hv', hk, hle', ?_⟩
                    intro hnil _ hpos
                    rw [hnil] at hfull
                    exact absurd hfull (by simpa using Nat.ne_of_lt hpos)
                · obtain ⟨v', cl, k, heq, hcl, hv', hk, hle', hpos⟩ :=
                    hnext _ (hv.push b.pos size) rfl
                  exact ⟨v', cl, k, heq, hcl, hv', hk, hle', fun _ _ _ _ => hpos⟩
      · next hlt =>
          obtain ⟨v', cl, k, heq, hcl, hv', hk, hle', -⟩ := hstop
          exact ⟨v', cl, k, heq, hcl, hv', hk, hle', fun _ h' => absurd h' hlt⟩

/-! ## Writing -/

/-- `s'` is `s` after calls of `write` that took `xs`. -/
structure Took (s : Outlet) (xs : List Byte) (s' : Outlet) : Prop where
  outcome : s'.outcome = s.outcome
  calls : s.calls ≤ s'.calls
  accepted : s'.accepted = s.accepted ++ xs

theorem Took.refl (s : Outlet) : Took s [] s := ⟨rfl, Nat.le_refl _, (List.append_nil _).symm⟩

theorem Took.trans {s s' s'' : Outlet} {xs ys : List Byte} (h : Took s xs s') (h' : Took s' ys s'') :
    Took s (xs ++ ys) s'' := by
  refine ⟨h'.outcome.trans h.outcome, Nat.le_trans h.calls h'.calls, ?_⟩
  rw [h'.accepted, h.accepted, List.append_assoc]

/-- The result of writing `xs`: a prefix was taken, or nothing and the last call failed. -/
def Wrote (s : Outlet) (xs : List Byte) (total : Nat) (r : Except Errno Nat) (s' : Outlet) : Prop :=
  (∃ k, k ≤ xs.length ∧ r = .ok (total + k) ∧ Took s (xs.take k) s') ∨
    ∃ e, r = .error e ∧ total = 0 ∧ Took s [] s' ∧ s.calls < s'.calls ∧
      s.outcome (s'.calls - 1) = .fail e

theorem write_wrote (s : Outlet) (xs : List Byte) :
    Wrote s xs 0 (s.write xs).1 (s.write xs).2 := by
  obtain ⟨k, hk, heq⟩ | ⟨e, hout, heq⟩ := s.write_cases xs
  · rw [heq]
    exact .inl ⟨k, hk, by rw [Nat.zero_add], rfl, Nat.le_succ _, rfl⟩
  · rw [heq]
    exact .inr ⟨e, rfl, rfl, ⟨rfl, Nat.le_succ _, (List.append_nil _).symm⟩, Nat.lt_succ_self _, hout⟩

/-- Writing piece by piece. -/
theorem writeSegments_wrote (mem : Nat → Byte) (iovs : List Iovec) (total : Nat) (s : Outlet) :
    Wrote s (piecesBytes mem iovs) total (writeSegments mem iovs total s).1
      (writeSegments mem iovs total s).2 := by
  induction iovs generalizing total s with
  | nil => exact .inl ⟨0, Nat.zero_le _, rfl, .refl s⟩
  | cons iov iovs ih =>
      have hbytes : piecesBytes mem (iov :: iovs) =
          load mem iov.base iov.len ++ piecesBytes mem iovs := List.flatMap_cons
      have hlen : (load mem iov.base iov.len).length = iov.len := load_length _ _ _
      rw [hbytes]
      unfold writeSegments
      obtain ⟨k, hk, heq⟩ | ⟨e, hout, heq⟩ := s.write_cases (load mem iov.base iov.len)
      · rw [heq]
        dsimp only
        generalize hs' : Outlet.mk _ _ _ = s'
        have htook : Took s ((load mem iov.base iov.len).take k) s' := by
          subst hs'
          exact ⟨rfl, Nat.le_succ _, rfl⟩
        split
        · next hshort =>
            refine .inl ⟨k, by rw [List.length_append]; omega, rfl, ?_⟩
            rw [List.take_append_of_le_length hk]
            exact htook
        · next hfull =>
            obtain rfl : k = iov.len := by omega
            have hall : (load mem iov.base iov.len).take iov.len = load mem iov.base iov.len :=
              List.take_of_length_le (by omega)
            rw [hall] at htook
            obtain ⟨j, hj, hr, htook'⟩ | ⟨e, hr, htotal, htook', hcalls, hout⟩ :=
              ih (total + iov.len) s'
            · refine .inl ⟨iov.len + j, by rw [List.length_append, hlen]; omega, ?_, ?_⟩
              · rw [hr, Nat.add_assoc]
              · rw [List.take_append, hlen, Nat.add_sub_cancel_left, List.take_of_length_le (by omega)]
                exact htook.trans htook'
            · -- only after an empty piece
              have hzero : iov.len = 0 := by omega
              rw [hzero, load_zero] at htook
              have hboth : Took s [] _ := htook.trans htook'
              refine .inr ⟨e, hr, by omega, hboth, Nat.lt_of_le_of_lt htook.calls hcalls, ?_⟩
              rw [← htook.outcome]
              exact hout
      · rw [heq]
        dsimp only
        split
        · next htotal =>
            exact .inl ⟨0, Nat.zero_le _, rfl, rfl, Nat.le_succ _, (List.append_nil _).symm⟩
        · next htotal =>
            refine .inr ⟨e, rfl, by simpa using htotal, ⟨rfl, Nat.le_succ _, (List.append_nil _).symm⟩,
              Nat.lt_succ_self _, hout⟩

variable {c c' : Conn}

/-- One attempt to write the vector, on either path. -/
theorem writeOnce_wrote (hv : v.Describes mem xs) (c : Conn) :
    Wrote c.socket xs 0 (writeOnce mem v c).1 (writeOnce mem v c).2.socket ∧
      ∃ s, (writeOnce mem v c).2 = { c with socket := s } := by
  unfold writeOnce
  split
  · next hsmall =>
      have htake : (piecesBytes mem v.iovs.reverse).take v.total = xs := by
        rw [hv.bytes, hv.total, List.take_length]
      -- the copy is as long as the vector, which the test bounds by the size of the buffer
      have hfits : (decide (writevBufferSize < (piecesBytes mem v.iovs.reverse).length) ||
          decide ((piecesBytes mem v.iovs.reverse).length < v.total)) = false := by
        rw [hv.bytes, ← hv.total]
        simpa using hsmall.2
      dsimp only
      rw [htake, Bool.or_assoc, hfits, Bool.or_false]
      exact ⟨write_wrote c.socket xs, _, rfl⟩
  · have hwrote := writeSegments_wrote mem v.iovs.reverse 0 c.socket
    rw [hv.bytes] at hwrote
    exact ⟨hwrote, _, rfl⟩

/-- What a call of `ngx_writev` or `ngx_writev_chain` does to the connection: it sends `ys`. -/
structure Sends (c : Conn) (ys : List Byte) (c' : Conn) : Prop where
  took : Took c.socket ys c'.socket
  overrun : c'.overrun = c.overrun

theorem Sends.refl (c : Conn) : Sends c [] c := ⟨.refl _, rfl⟩

theorem Sends.trans {c'' : Conn} {ys zs : List Byte} (h : Sends c ys c') (h' : Sends c' zs c'') :
    Sends c (ys ++ zs) c'' :=
  ⟨h.took.trans h'.took, h'.overrun.trans h.overrun⟩

/-- `ngx_writev`: what it reports as sent was taken, and nothing else. -/
theorem ngxWritev_spec (hv : v.Describes mem xs) {fuel : Nat} {r : SendResult}
    (h : ngxWritev mem v fuel c = some (r, c')) :
    r.count ≤ xs.length ∧ Sends c (xs.take r.count) c' ∧ c'.sent = c.sent := by
  induction fuel generalizing c with
  | zero => cases h
  | succ fuel ih =>
      unfold ngxWritev at h
      obtain ⟨hwrote, s, hc⟩ := writeOnce_wrote hv c
      generalize writeOnce mem v c = r₀ at h hwrote hc
      obtain ⟨r₀, c₀⟩ := r₀
      obtain rfl : c₀ = { c with socket := s } := hc
      obtain ⟨k, hk, rfl, htook⟩ | ⟨e, rfl, -, htook, -, -⟩ := hwrote
      · rw [Nat.zero_add] at h
        cases h
        exact ⟨hk, ⟨htook, rfl⟩, rfl⟩
      · have hnone : Sends c [] { c with socket := s } := ⟨htook, rfl⟩
        cases e with
        | eagain =>
            cases h
            exact ⟨Nat.zero_le _, hnone, rfl⟩
        | eintr =>
            obtain ⟨hk, hsends, hsent⟩ := ih h
            exact ⟨hk, hnone.trans hsends, hsent⟩
        | other code =>
            cases h
            exact ⟨Nat.zero_le _, ⟨htook, rfl⟩, rfl⟩

/-- `ngx_writev` returns once the calls are no longer interrupted. -/
theorem ngxWritev_isSome (hv : v.Describes mem xs) {K fuel : Nat}
    (hK : c.socket.FinitelyInterrupted K) (hfuel : K - c.socket.calls < fuel) :
    (ngxWritev mem v fuel c).isSome := by
  induction fuel generalizing c with
  | zero => omega
  | succ fuel ih =>
      unfold ngxWritev
      obtain ⟨hwrote, s, hc⟩ := writeOnce_wrote hv c
      generalize writeOnce mem v c = r₀ at hwrote hc ⊢
      obtain ⟨r₀, c₀⟩ := r₀
      obtain rfl : c₀ = { c with socket := s } := hc
      obtain ⟨k, hk, rfl, htook⟩ | ⟨e, rfl, -, htook, hcalls, hout⟩ := hwrote
      · rfl
      · cases e with
        | eagain => rfl
        | other code => rfl
        | eintr =>
            -- the interrupted call was one of the first `K`
            have hlt : s.calls - 1 < K := by
              by_contra hge
              exact hK _ (Nat.le_of_not_lt hge) hout
            have hcalls' : c.socket.calls < s.calls := hcalls
            apply ih
            · intro i hi
              show s.outcome i ≠ _
              rw [htook.outcome]
              exact hK i hi
            · show K - s.calls < fuel
              omega

/-! ## One call -/

theorem Buf.Sendable.not_inFile (h : b.Sendable) : b.inFile = false := by
  obtain hs | ⟨-, hfile, -⟩ := h
  · unfold ngxBufSpecial at hs
    simp only [Bool.and_eq_true, Bool.not_eq_true'] at hs
    exact hs.2
  · exact hfile

theorem Sendable.no_file {cl : List Buf} (h : Sendable chain) (hcl : cl <:+ chain) :
    cl.head?.any (·.inFile) = false := by
  cases cl with
  | nil => rfl
  | cons b cl =>
      have hb : b ∈ chain := hcl.subset List.mem_cons_self
      exact (h b hb).not_inFile

/-- The vector of one turn of the loop. -/
theorem batch_spec (mem : Nat → Byte) (h : Sendable chain) (room : Nat) :
    ∃ v cl k, ngxOutputChainToIovec ngxIovsPreallocate room chain .start = some (v, cl) ∧
      cl.head?.any (·.inFile) = false ∧ v.Describes mem ((chainBytes mem chain).take k) ∧
      v.total = k ∧ k ≤ (chainBytes mem chain).length ∧ k ≤ room ∧
      (0 < room → chainBytes mem chain ≠ [] → 0 < k) := by
  obtain ⟨v, cl, k, heq, hcl, hv, hk, hle, hpos⟩ :=
    ngxOutputChainToIovec_spec ngxIovsPreallocate h (.start mem) (Nat.zero_le room)
  have htotal : v.total = k := by
    rw [hv.total, List.nil_append, List.length_take]
    omega
  refine ⟨v, cl, k, heq, h.no_file hcl, by simpa using hv, htotal, hk, htotal ▸ hle, ?_⟩
  intro hroom hne
  exact hpos rfl hroom (by decide) hne

/-- A turn of the loop after a `writev` that did not fail. -/
theorem writevLoop_turn {limit fuel send : Nat} {cl : List Buf} {r : SendResult}
    (heq : ngxOutputChainToIovec ngxIovsPreallocate (limit - send) chain .start = some (v, cl))
    (hfile : cl.head?.any (·.inFile) = false) (hw : ngxWritev mem v fuel c = some (r, c'))
    (hr : r ≠ .error) :
    writevLoop mem limit (fuel + 1) c chain send =
      let c := { c' with sent := c'.sent + r.count }
      let chain := ngxChainUpdateSent chain r.count
      if v.total ≠ r.count then some (some chain, { c with ready := false })
      else if limit ≤ send + v.total ∨ chain = [] then some (some chain, c)
      else writevLoop mem limit fuel c chain (send + v.total) := by
  rw [writevLoop, heq]
  dsimp only
  rw [if_neg (by simp [hfile]), hw]
  cases r with
  | error => exact absurd rfl hr
  | sent n => rfl
  | again => rfl

theorem writevLoop_spec {limit fuel send : Nat} {r : Option (List Buf)} (hchain : Sendable chain)
    (h : writevLoop mem limit fuel c chain send = some (r, c')) :
    ∃ n, n ≤ (chainBytes mem chain).length ∧ n ≤ limit - send ∧
      Sends c ((chainBytes mem chain).take n) c' ∧ c'.sent = c.sent + n ∧
      ∀ rest, r = some rest → Sendable rest ∧ chainBytes mem rest = (chainBytes mem chain).drop n := by
  induction fuel generalizing c chain send with
  | zero => cases h
  | succ fuel ih =>
      obtain ⟨v, cl, k, heq, hfile, hv, htotal, hk, hroom, -⟩ := batch_spec mem hchain (limit - send)
      cases hw : ngxWritev mem v fuel c with
      | none =>
          rw [writevLoop, heq] at h
          simp [hfile, hw] at h
      | some res =>
          obtain ⟨res, c₁⟩ := res
          obtain ⟨hm, hsends, hsent⟩ := ngxWritev_spec hv hw
          rw [List.length_take] at hm
          rw [List.take_take, Nat.min_eq_left (by omega)] at hsends
          by_cases herr : res = .error
          · subst herr
            rw [writevLoop, heq] at h
            dsimp only at h
            rw [if_neg (by simp [hfile]), hw] at h
            cases h
            exact ⟨0, Nat.zero_le _, Nat.zero_le _, hsends, hsent, nofun⟩
          · obtain ⟨hsend', hdrop⟩ :=
              ngxChainUpdateSent_spec mem hchain res.count (by omega)
            rw [writevLoop_turn heq hfile hw herr] at h
            dsimp only at h
            split at h
            · -- a short write: the call returns
              cases h
              refine ⟨res.count, by omega, by omega, ⟨hsends.took, hsends.overrun⟩, ?_, ?_⟩
              · show c₁.sent + res.count = _
                rw [hsent]
              · rintro rest ⟨⟩
                exact ⟨hsend', hdrop⟩
            · next hall =>
                split at h
                · cases h
                  refine ⟨res.count, by omega, by omega, ⟨hsends.took, hsends.overrun⟩, ?_, ?_⟩
                  · show c₁.sent + res.count = _
                    rw [hsent]
                  · rintro rest ⟨⟩
                    exact ⟨hsend', hdrop⟩
                · -- the whole vector was sent: the rest of the chain is next
                  obtain ⟨n, hn, hlim, hsends', hsent', hrest⟩ := ih hsend' h
                  rw [hdrop, List.length_drop] at hn
                  refine ⟨res.count + n, by omega, by omega, ?_, ?_, ?_⟩
                  · rw [List.take_add, ← hdrop]
                    exact ⟨hsends.took.trans hsends'.took, hsends'.overrun.trans hsends.overrun⟩
                  · rw [hsent']
                    show c₁.sent + res.count + n = _
                    rw [hsent, Nat.add_assoc]
                  · intro rest hr
                    obtain ⟨hs, hb⟩ := hrest rest hr
                    rw [hdrop, List.drop_drop] at hb
                    exact ⟨hs, hb⟩

theorem writevLoop_isSome {limit fuel send K : Nat} (hchain : Sendable chain)
    (hK : c.socket.FinitelyInterrupted K)
    (hfuel : K - c.socket.calls + (chainBytes mem chain).length + 1 < fuel) :
    (writevLoop mem limit fuel c chain send).isSome := by
  induction fuel generalizing c chain send with
  | zero => omega
  | succ fuel ih =>
      obtain ⟨v, cl, k, heq, hfile, hv, htotal, hk, hroom, hpos⟩ := batch_spec mem hchain (limit - send)
      have hsome : (ngxWritev mem v fuel c).isSome := ngxWritev_isSome hv hK (by omega)
      obtain ⟨⟨res, c₁⟩, hw⟩ := Option.isSome_iff_exists.mp hsome
      obtain ⟨hm, hsends, -⟩ := ngxWritev_spec hv hw
      rw [List.length_take] at hm
      by_cases herr : res = .error
      · subst herr
        rw [writevLoop, heq]
        simp [hfile, hw]
      · obtain ⟨hsend', hdrop⟩ := ngxChainUpdateSent_spec mem hchain res.count (by omega)
        rw [writevLoop_turn heq hfile hw herr]
        dsimp only
        split
        · rfl
        · next hall =>
            split
            · rfl
            · next hmore =>
                -- the chain got shorter
                have hcount : v.total = res.count := not_not.mp hall
                have hne : chainBytes mem chain ≠ [] := by
                  intro hnil
                  rw [hnil, List.drop_nil] at hdrop
                  exact hmore (.inr (ngxChainUpdateSent_eq_nil hsend' hdrop))
                have hk0 : 0 < k := hpos (by omega) hne
                apply ih hsend'
                · intro i hi
                  show c₁.socket.outcome i ≠ _
                  rw [hsends.took.outcome]
                  exact hK i hi
                · show K - c₁.socket.calls + _ + 1 < fuel
                  have hcalls := hsends.took.calls
                  rw [hdrop, List.length_drop]
                  omega

/-- One call of `ngx_writev_chain`, whatever it returns. -/
theorem ngxWritevChain_spec {pagesize fuel limit : Nat} {r : Option (List Buf)}
    (hchain : Sendable chain) (h : ngxWritevChain mem pagesize fuel c chain limit = some (r, c')) :
    ∃ n, n ≤ (chainBytes mem chain).length ∧ n ≤ effectiveLimit pagesize limit ∧
      Sends c ((chainBytes mem chain).take n) c' ∧ c'.sent = c.sent + n ∧
      ∀ rest, r = some rest → Sendable rest ∧ chainBytes mem rest = (chainBytes mem chain).drop n := by
  unfold ngxWritevChain at h
  split at h
  · cases h
    refine ⟨0, Nat.zero_le _, Nat.zero_le _, .refl c, rfl, ?_⟩
    rintro rest ⟨⟩
    exact ⟨hchain, List.drop_zero.symm⟩
  · exact writevLoop_spec hchain h

/-! ## Sessions -/

/-- One call: the event loop may have found the socket writable before it. -/
structure Call where
  wake : Bool
  limit : Nat
  deriving DecidableEq, Repr

def Conn.wake (c : Conn) (wake : Bool) : Conn := { c with ready := c.ready || wake }

/-- Calls of `ngx_writev_chain`, each with the chain returned before, up to the first error. -/
def sendCalls (mem : Nat → Byte) (pagesize fuel : Nat) :
    List Call → Conn → List Buf → Option (Option (List Buf) × Conn)
  | [], c, chain => some (some chain, c)
  | call :: calls, c, chain =>
    match ngxWritevChain mem pagesize fuel (c.wake call.wake) chain call.limit with
    | none => none
    | some (none, c) => some (none, c)
    | some (some chain, c) => sendCalls mem pagesize fuel calls c chain

/-- The part of a chain that was sent, and what is left of it. -/
structure Progress (mem : Nat → Byte) (c : Conn) (chain : List Buf) (c' : Conn) (rest : List Buf) :
    Prop where
  sendable : Sendable rest
  outcome : c'.socket.outcome = c.socket.outcome
  overrun : c'.overrun = c.overrun
  delivered : ∃ ys, c'.socket.accepted = c.socket.accepted ++ ys ∧
    chainBytes mem chain = ys ++ chainBytes mem rest ∧ c'.sent = c.sent + ys.length

theorem Progress.trans {c₁ c₂ c₃ : Conn} {l₁ l₂ l₃ : List Buf} (h : Progress mem c₁ l₁ c₂ l₂)
    (h' : Progress mem c₂ l₂ c₃ l₃) : Progress mem c₁ l₁ c₃ l₃ := by
  obtain ⟨ys, hacc, hbytes, hsent⟩ := h.delivered
  obtain ⟨zs, hacc', hbytes', hsent'⟩ := h'.delivered
  refine ⟨h'.sendable, h'.outcome.trans h.outcome, h'.overrun.trans h.overrun, ys ++ zs, ?_, ?_, ?_⟩
  · rw [hacc', hacc, List.append_assoc]
  · rw [hbytes, hbytes', List.append_assoc]
  · rw [hsent', hsent, List.length_append, Nat.add_assoc]

theorem ngxWritevChain_progress {pagesize fuel : Nat} {call : Call} {rest : List Buf}
    (hchain : Sendable chain)
    (h : ngxWritevChain mem pagesize fuel (c.wake call.wake) chain call.limit = some (some rest, c')) :
    Progress mem c chain c' rest := by
  obtain ⟨n, hn, -, hsends, hsent, hrest⟩ := ngxWritevChain_spec hchain h
  obtain ⟨hs, hbytes⟩ := hrest rest rfl
  refine ⟨hs, hsends.took.outcome, hsends.overrun, _, hsends.took.accepted, ?_, ?_⟩
  · rw [hbytes, List.take_append_drop]
  · rw [hsent, List.length_take, Nat.min_eq_left hn]
    rfl

theorem sendCalls_progress {pagesize fuel : Nat} {calls : List Call} {rest : List Buf}
    (hchain : Sendable chain) (h : sendCalls mem pagesize fuel calls c chain = some (some rest, c')) :
    Progress mem c chain c' rest := by
  induction calls generalizing c chain with
  | nil =>
      cases h
      exact ⟨hchain, rfl, rfl, [], (List.append_nil _).symm, rfl, rfl⟩
  | cons call calls ih =>
      unfold sendCalls at h
      split at h
      · cases h
      · cases h
      · next chain₁ c₁ heq =>
          have hfirst := ngxWritevChain_progress hchain heq
          exact hfirst.trans (ih hfirst.sendable h)

/-- In every session, as long as no error was returned: the socket has accepted a prefix of the
bytes of the chain, the chain at hand holds the rest, `c->sent` counts what was accepted, and the
buffer of `ngx_writev` was not overrun. The next call sends at most the limit in effect, also if it
fails, and it returns if only finitely many calls of `write` are interrupted. -/
theorem chain_delivered (mem : Nat → Byte) (pagesize fuel : Nat) (c c' : Conn)
    (chain rest : List Buf) (calls : List Call) (hchain : Sendable chain)
    (h : sendCalls mem pagesize fuel calls c chain = some (some rest, c')) :
    c'.socket.accepted ++ chainBytes mem rest = c.socket.accepted ++ chainBytes mem chain ∧
      c.socket.accepted <+: c'.socket.accepted ∧
      c'.sent = c.sent + (c'.socket.accepted.length - c.socket.accepted.length) ∧
      c'.overrun = c.overrun ∧
      ∀ next : Call,
        (∀ fuel' r c'',
          ngxWritevChain mem pagesize fuel' (c'.wake next.wake) rest next.limit = some (r, c'') →
          ∃ n, n ≤ effectiveLimit pagesize next.limit ∧ c''.sent = c'.sent + n ∧
            c''.socket.accepted = c'.socket.accepted ++ (chainBytes mem rest).take n ∧
            n ≤ (chainBytes mem rest).length ∧ c''.overrun = c.overrun) ∧
        ((∃ K, c.socket.FinitelyInterrupted K) →
          ∃ enough, ∀ fuel', enough ≤ fuel' →
            (ngxWritevChain mem pagesize fuel' (c'.wake next.wake) rest next.limit).isSome) := by
  have hp := sendCalls_progress hchain h
  obtain ⟨ys, hacc, hbytes, hsent⟩ := hp.delivered
  refine ⟨?_, ⟨ys, hacc.symm⟩, ?_, hp.overrun, ?_⟩
  · rw [hacc, hbytes, List.append_assoc]
  · rw [hsent, hacc, List.length_append, Nat.add_sub_cancel_left]
  · intro next
    constructor
    · intro fuel' r c'' hnext
      obtain ⟨n, hn, hlim, hsends, hsent', -⟩ := ngxWritevChain_spec hp.sendable hnext
      exact ⟨n, hlim, hsent', hsends.took.accepted, hn, hsends.overrun.trans hp.overrun⟩
    · rintro ⟨K, hK⟩
      refine ⟨K - c'.socket.calls + (chainBytes mem rest).length + 2, ?_⟩
      intro fuel' hfuel
      unfold ngxWritevChain
      split
      · rfl
      · apply writevLoop_isSome hp.sendable
        · intro i hi
          show c'.socket.outcome i ≠ _
          rw [hp.outcome]
          exact hK i hi
        · show K - c'.socket.calls + _ + 1 < fuel'
          omega

/-- Two buffers of two bytes; the first write takes three bytes, after an interruption. -/
theorem short_write_delivered :
    let buf : Nat → Buf := fun a => ⟨a, a + 2, 0, 0, true, false, false, false, false, false, false⟩
    let socket : Outlet := ⟨fun i => if i = 0 then .fail .eintr else .take 3, 0, []⟩
    let mem : Nat → Byte := fun a => a.toUInt8
    ∃ c', sendCalls mem 65536 10 [⟨true, 0⟩] ⟨socket, 0, false, false, false⟩ [buf 10, buf 20] =
        some (some [{ buf 20 with pos := 21 }], c') ∧
      c'.socket.accepted = [10, 11, 20] ∧
      c'.socket.accepted ++ chainBytes mem [{ buf 20 with pos := 21 }] =
        chainBytes mem [buf 10, buf 20] := by
  intro buf socket mem
  have h : ∃ c', sendCalls mem 65536 10 [⟨true, 0⟩] ⟨socket, 0, false, false, false⟩
      [buf 10, buf 20] = some (some [{ buf 20 with pos := 21 }], c') ∧
        c'.socket.accepted = [10, 11, 20] := ⟨_, rfl, rfl⟩
  obtain ⟨c', hrun, hacc⟩ := h
  have hchain : Sendable [buf 10, buf 20] := by decide
  exact ⟨c', hrun, hacc, (chain_delivered mem 65536 10 _ c' _ _ _ hchain hrun).1⟩

end WasiPorts.Nginx
