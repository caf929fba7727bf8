import WasiPorts.Lib.Run
import WasiPorts.Nginx.Pipe

/-!
# Nothing read from an upstream server is lost

The raw buffers lie apart in memory, and of the free ones only the first may hold bytes. So what a
call reads goes behind the bytes of the first free buffer, and the loop that hands buffers out
follows the order in which they were filled (`distribute_spec`).

* `Delivered` — what was read is what was handed to the input filter, then the bytes of the first
  free buffer, then what was read before the first call.
* `upstream_delivered` — it holds in every run, and every call of `ngx_readv_chain` reports what it
  stored.
-/

namespace WasiPorts.Nginx

open WasiPorts.Memory WasiPorts.Run

/-! ## Buffers apart from each other -/

/-- Two buffers do not overlap. -/
def Apart (a b : RawBuf) : Prop := a.stop ≤ b.start ∨ b.stop ≤ a.start

theorem Apart.symm {a b : RawBuf} (h : Apart a b) : Apart b a := Or.symm h

instance (a b : RawBuf) : Decidable (Apart a b) := inferInstanceAs (Decidable (_ ∨ _))

/-- A buffer with free space, also after `ngx_event_pipe_add_free_buf`. -/
structure Pipe.BufOk (p : Pipe) (b : RawBuf) : Prop where
  ok : b.Ok
  file : ∀ last, p.bufToFile = some (b.start, last) → b.start ≤ last ∧ last < b.stop

/-- The chain of free buffers. -/
structure ChainOk (p : Pipe) (chain : List RawBuf) : Prop where
  bufs : ∀ b ∈ chain, p.BufOk b
  apart : chain.Pairwise Apart
  tail : ∀ b ∈ chain.tail, b.pos = b.last

/-- The bytes of the first buffer. -/
def headBytes (mem : Nat → Byte) : List RawBuf → List Byte
  | [] => []
  | b :: _ => b.bytes mem

variable {p : Pipe} {b : RawBuf} {chain : List RawBuf}

theorem bytes_of_empty (mem : Nat → Byte) (h : b.pos = b.last) : b.bytes mem = [] := by
  rw [RawBuf.bytes, h, Nat.sub_self, load_zero]

theorem mem_freeAddrs {x : Nat} :
    x ∈ freeAddrs chain ↔ ∃ b ∈ chain, b.last ≤ x ∧ x < b.stop := by
  simp only [freeAddrs, List.mem_flatMap, List.mem_range'_1]
  constructor
  · rintro ⟨b, hb, hle, hlt⟩
    exact ⟨b, hb, hle, by omega⟩
  · rintro ⟨b, hb, hle, hlt⟩
    exact ⟨b, hb, hle, by omega⟩

/-- The free space of buffers that lie apart has no address twice. -/
theorem freeAddrs_nodup (hok : ∀ b ∈ chain, b.Ok) (h : chain.Pairwise Apart) :
    (freeAddrs chain).Nodup := by
  induction chain with
  | nil => exact List.nodup_nil
  | cons b chain ih =>
      obtain ⟨hb, hchain⟩ := List.pairwise_cons.mp h
      have hok' : ∀ b ∈ chain, b.Ok := fun b' hb' => hok b' (List.mem_cons_of_mem b hb')
      rw [freeAddrs_cons, List.nodup_append]
      refine ⟨List.nodup_range', ih hok' hchain, ?_⟩
      intro x hx y hy hxy
      subst hxy
      obtain ⟨b', hb', hle, hlt⟩ := mem_freeAddrs.mp hy
      rw [List.mem_range'_1] at hx
      have hok₁ := hok b List.mem_cons_self
      have hok₂ := hok' b' hb'
      obtain hap | hap := hb b' hb'
      · unfold RawBuf.Ok at hok₁ hok₂
        omega
      · unfold RawBuf.Ok at hok₁ hok₂
        omega

/-- The bytes of the first buffer are not in the free space. -/
theorem headBytes_scatter (mem : Nat → Byte) (hok : ∀ b ∈ chain, b.Ok) (h : chain.Pairwise Apart)
    (n : Nat) (xs : List Byte) :
    headBytes (scatter mem ((freeAddrs chain).take n) xs) chain = headBytes mem chain := by
  cases chain with
  | nil => rfl
  | cons b chain =>
      apply map_scatter_of_disjoint
      intro x hx hmem
      obtain ⟨b', hb', hle, hlt⟩ := mem_freeAddrs.mp (List.mem_of_mem_take hmem)
      rw [List.mem_range'_1] at hx
      have hok₁ := hok b List.mem_cons_self
      have hok₂ := hok b' hb'
      unfold RawBuf.Ok at hok₁ hok₂
      obtain rfl | hb' := List.mem_cons.mp hb'
      · omega
      · obtain hap | hap := (List.pairwise_cons.mp h).1 b' hb'
        · omega
        · omega

/-! ## Returning buffers -/

theorem emptied_region (p : Pipe) (b : RawBuf) :
    (p.emptied b).start = b.start ∧ (p.emptied b).stop = b.stop ∧
      (p.emptied b).pos = (p.emptied b).last := by
  unfold Pipe.emptied
  split
  · split
    · exact ⟨rfl, rfl, rfl⟩
    · exact ⟨rfl, rfl, rfl⟩
  · exact ⟨rfl, rfl, rfl⟩

theorem Pipe.BufOk.emptied (h : p.BufOk b) : p.BufOk (p.emptied b) := by
  have hok := h.ok
  unfold RawBuf.Ok at hok
  obtain ⟨hstart, hstop, -⟩ := emptied_region p b
  refine ⟨?_, ?_⟩
  · unfold Pipe.emptied
    split
    · next start last hfile =>
        split
        · next hs =>
            subst hs
            obtain ⟨hle, hlt⟩ := h.file last hfile
            exact ⟨hle, Nat.le_refl _, hlt⟩
        · exact ⟨Nat.le_refl _, Nat.le_refl _, by show b.start < b.stop; omega⟩
    · exact ⟨Nat.le_refl _, Nat.le_refl _, by show b.start < b.stop; omega⟩
  · rw [hstart, hstop]
    exact h.file

theorem Apart.emptied {a : RawBuf} (h : Apart a b) (p : Pipe) : Apart a (p.emptied b) := by
  obtain ⟨hstart, hstop, -⟩ := emptied_region p b
  unfold Apart
  rw [hstart, hstop]
  exact h

/-- Only `free_raw_bufs` matters for which chains are well-formed, and `buf_to_file`. -/
theorem ChainOk.of_eq {q : Pipe} (h : ChainOk p chain) (heq : q.bufToFile = p.bufToFile) :
    ChainOk q chain :=
  ⟨fun b hb => ⟨(h.bufs b hb).ok, heq ▸ (h.bufs b hb).file⟩, h.apart, h.tail⟩

/-- A buffer that comes back goes behind the bytes of the first free one. -/
theorem addFreeBuf_spec (h : ChainOk p p.freeRawBufs) (hb : p.BufOk b)
    (hap : ∀ a ∈ p.freeRawBufs, Apart a b) :
    ChainOk p (addFreeBuf p b).freeRawBufs ∧
      ∀ mem, headBytes mem (addFreeBuf p b).freeRawBufs = headBytes mem p.freeRawBufs := by
  have hok := hb.emptied
  have hempty := (emptied_region p b).2.2
  unfold addFreeBuf
  dsimp only
  cases hfree : p.freeRawBufs with
  | nil =>
      refine ⟨⟨?_, List.pairwise_singleton _ _, by simp⟩, fun mem => bytes_of_empty mem hempty⟩
      simpa using hok
  | cons head rest =>
      rw [hfree] at h hap
      obtain ⟨hhead, hrest⟩ := List.pairwise_cons.mp h.apart
      dsimp only
      split
      · next hnone =>
          refine ⟨⟨?_, ?_, ?_⟩, ?_⟩
          · intro b' hb'
            obtain rfl | hb' := List.mem_cons.mp hb'
            · exact hok
            · exact h.bufs b' hb'
          · refine List.pairwise_cons.mpr ⟨?_, h.apart⟩
            intro a ha
            exact ((hap a ha).emptied p).symm
          · intro b' hb'
            obtain rfl | hb' := List.mem_cons.mp hb'
            · exact hnone
            · exact h.tail b' hb'
          · intro mem
            exact (bytes_of_empty mem hempty).trans (bytes_of_empty mem hnone).symm
      · refine ⟨⟨?_, ?_, ?_⟩, fun mem => rfl⟩
        · intro b' hb'
          obtain rfl | hb' := List.mem_cons.mp hb'
          · exact h.bufs b' List.mem_cons_self
          · obtain rfl | hb' := List.mem_cons.mp hb'
            · exact hok
            · exact h.bufs b' (List.mem_cons_of_mem head hb')
        · refine List.pairwise_cons.mpr ⟨?_, List.pairwise_cons.mpr ⟨?_, hrest⟩⟩
          · intro a ha
            obtain rfl | ha := List.mem_cons.mp ha
            · exact (hap head List.mem_cons_self).emptied p
            · exact hhead a ha
          · intro a ha
            exact ((hap a (List.mem_cons_of_mem head ha)).emptied p).symm
        · intro b' hb'
          obtain rfl | hb' := List.mem_cons.mp hb'
          · exact hempty
          · exact h.tail b' hb'

/-! ## Handing buffers out -/

/-- What the input filter and the return of buffers leave alone. -/
structure SameInput (p q : Pipe) : Prop where
  up : q.up = p.up
  upstreamEof : q.upstreamEof = p.upstreamEof
  upstreamError : q.upstreamError = p.upstreamError
  prereadBufs : q.prereadBufs = p.prereadBufs
  prereadSize : q.prereadSize = p.prereadSize
  bufToFile : q.bufToFile = p.bufToFile
  phase : q.phase = p.phase

theorem SameInput.trans {p q r : Pipe} (h : SameInput p q) (h' : SameInput q r) : SameInput p r :=
  ⟨h'.up.trans h.up, h'.upstreamEof.trans h.upstreamEof, h'.upstreamError.trans h.upstreamError,
    h'.prereadBufs.trans h.prereadBufs, h'.prereadSize.trans h.prereadSize,
    h'.bufToFile.trans h.bufToFile, h'.phase.trans h.phase⟩

theorem inputFilter_same (p : Pipe) (b : RawBuf) : SameInput p (inputFilter p b).2 :=
  ⟨rfl, rfl, rfl, rfl, rfl, rfl, rfl⟩

theorem addFreeBuf_same (p : Pipe) (b : RawBuf) : SameInput p (addFreeBuf p b) :=
  ⟨rfl, rfl, rfl, rfl, rfl, rfl, rfl⟩

/-- While buffers are handed out: the rest of the chain, and the buffers that came back. -/
structure Handing (p : Pipe) (chain : List RawBuf) : Prop where
  bufs : ∀ b ∈ chain ++ p.freeRawBufs, p.BufOk b
  apart : (chain ++ p.freeRawBufs).Pairwise Apart
  tail : ∀ b ∈ chain.tail, b.pos = b.last
  free : ∀ b ∈ p.freeRawBufs, b.pos = b.last

theorem addFreeBuf_front (p : Pipe) (b : RawBuf) (h : ∀ a ∈ p.freeRawBufs, a.pos = a.last) :
    (addFreeBuf p b).freeRawBufs = p.emptied b :: p.freeRawBufs := by
  unfold addFreeBuf
  dsimp only
  cases hfree : p.freeRawBufs with
  | nil => rfl
  | cons head rest =>
      rw [hfree] at h
      exact if_pos (h head List.mem_cons_self)

/-- The first buffer of the chain is handed out, and perhaps comes back. -/
theorem Handing.next {q : Pipe} (h : Handing p (b :: chain)) (hfile : q.bufToFile = p.bufToFile)
    (hfree : q.freeRawBufs = p.freeRawBufs ∨ q.freeRawBufs = p.emptied b :: p.freeRawBufs) :
    Handing q chain := by
  have hbufs : ∀ a, p.BufOk a → q.BufOk a := fun a ha => ⟨ha.ok, hfile ▸ ha.file⟩
  obtain ⟨hb, hrest⟩ := List.pairwise_cons.mp h.apart
  have htail : ∀ a ∈ chain.tail, a.pos = a.last := fun a ha => h.tail a (List.mem_of_mem_tail ha)
  obtain hfree | hfree := hfree
  · refine ⟨?_, ?_, htail, ?_⟩
    · intro a ha
      rw [hfree] at ha
      exact hbufs a (h.bufs a (List.mem_cons_of_mem b ha))
    · rw [hfree]
      exact hrest
    · rw [hfree]
      exact h.free
  · refine ⟨?_, ?_, htail, ?_⟩
    · intro a ha
      rw [hfree, List.mem_append, List.mem_cons] at ha
      obtain ha | rfl | ha := ha
      · exact hbufs a (h.bufs a (List.mem_cons_of_mem b (List.mem_append_left _ ha)))
      · exact hbufs _ (h.bufs b List.mem_cons_self).emptied
      · exact hbufs a (h.bufs a (List.mem_cons_of_mem b (List.mem_append_right _ ha)))
    · -- the buffer has moved from the front to the middle
      rw [hfree, List.perm_middle.pairwise_iff fun h => Apart.symm h]
      refine List.pairwise_cons.mpr ⟨?_, hrest⟩
      intro a ha
      exact ((hb a ha).symm.emptied p).symm
    · intro a ha
      rw [hfree] at ha
      obtain rfl | ha := List.mem_cons.mp ha
      · exact (emptied_region p b).2.2
      · exact h.free a ha

/-- The bytes of a chain into which `n` bytes have been read. -/
def chainData (mem : Nat → Byte) (chain : List RawBuf) (n : Nat) : List Byte :=
  headBytes mem chain ++ ((freeAddrs chain).take n).map mem

theorem bytes_filled (mem : Nat → Byte) (hok : b.Ok) (n : Nat) :
    ({ b with last := b.last + n } : RawBuf).bytes mem =
      b.bytes mem ++ (List.range' b.last n).map mem := by
  have hlen : b.last + n - b.pos = (b.last - b.pos) + n := by
    unfold RawBuf.Ok at hok
    omega
  have haddr : b.pos + (b.last - b.pos) = b.last := by
    unfold RawBuf.Ok at hok
    omega
  show load mem b.pos (b.last + n - b.pos) = _
  rw [hlen, load_add, haddr]
  rfl

/-- More was read than fits into the first buffer. -/
theorem chainData_full (mem : Nat → Byte) (hok : b.Ok) {n : Nat} (hn : b.stop - b.last ≤ n)
    (htail : ∀ a ∈ chain, a.pos = a.last) :
    chainData mem (b :: chain) n =
      ({ b with last := b.stop } : RawBuf).bytes mem ++
        chainData mem chain (n - (b.stop - b.last)) := by
  have hstop : b.last + (b.stop - b.last) = b.stop := by
    unfold RawBuf.Ok at hok
    omega
  have hfilled := bytes_filled mem hok (b.stop - b.last)
  rw [hstop] at hfilled
  have hhead : headBytes mem chain = [] := by
    cases chain with
    | nil => rfl
    | cons a chain => exact bytes_of_empty mem (htail a List.mem_cons_self)
  unfold chainData
  rw [hfilled, hhead, freeAddrs_cons, List.take_append, List.length_range', List.map_append,
    List.take_of_length_le (by rw [List.length_range']; exact hn), List.nil_append,
    List.append_assoc]
  rfl

/-- What was read fits into the first buffer. -/
theorem chainData_part (mem : Nat → Byte) (hok : b.Ok) {n : Nat} (hn : n ≤ b.stop - b.last) :
    chainData mem (b :: chain) n = ({ b with last := b.last + n } : RawBuf).bytes mem := by
  have htake : (List.range' b.last (b.stop - b.last)).take n = List.range' b.last n := by
    obtain ⟨d, hd⟩ := Nat.exists_eq_add_of_le hn
    rw [hd, ← List.range'_append_1, List.take_left' List.length_range']
  unfold chainData
  rw [bytes_filled mem hok, freeAddrs_cons,
    List.take_append_of_le_length (by rw [List.length_range']; exact hn), htake]
  rfl

theorem SameInput.refl (p : Pipe) : SameInput p p := ⟨rfl, rfl, rfl, rfl, rfl, rfl, rfl⟩

/-- A buffer is handed out, and perhaps comes back. -/
def handOut (p : Pipe) (filled b : RawBuf) : Pipe :=
  if (inputFilter p filled).1.recycle then addFreeBuf (inputFilter p filled).2 b
  else (inputFilter p filled).2

theorem handOut_same (p : Pipe) (filled b : RawBuf) : SameInput p (handOut p filled b) := by
  unfold handOut
  split
  · exact (inputFilter_same p _).trans (addFreeBuf_same _ b)
  · exact inputFilter_same p _

theorem handOut_filtered (p : Pipe) (filled b : RawBuf) :
    (handOut p filled b).filtered = p.filtered ++ filled.bytes p.up.mem := by
  unfold handOut
  split <;> rfl

theorem handOut_free (filled b : RawBuf) (h : ∀ a ∈ p.freeRawBufs, a.pos = a.last) :
    (handOut p filled b).freeRawBufs = p.freeRawBufs ∨
      (handOut p filled b).freeRawBufs = p.emptied b :: p.freeRawBufs := by
  unfold handOut
  split
  · exact .inr (addFreeBuf_front _ b h)
  · exact .inl rfl

theorem distribute_cons (n : Nat) (p : Pipe) (b : RawBuf) (chain : List RawBuf) :
    distribute (b :: chain) n p =
      if n = 0 then (true, b :: chain, p)
      else if b.stop - b.last ≤ n then
        if (p.filter p.filterCalls).error then (false, chain, handOut p { b with last := b.stop } b)
        else distribute chain (n - (b.stop - b.last)) (handOut p { b with last := b.stop } b)
      else (true, { b with last := b.last + n } :: chain, p) := rfl

theorem distribute_same (chain : List RawBuf) (n : Nat) (p : Pipe) :
    SameInput p (distribute chain n p).2.2 := by
  induction chain generalizing n p with
  | nil => exact .refl p
  | cons b chain ih =>
      rw [distribute_cons]
      split
      · exact .refl p
      · split
        · split
          · exact handOut_same p _ b
          · exact (handOut_same p _ b).trans (ih _ _)
        · exact .refl p

/-- The loop that hands buffers out keeps the bytes in order. -/
theorem distribute_spec (n : Nat) (h : Handing p chain) (hn : n ≤ (freeAddrs chain).length) :
    ((distribute chain n p).1 = true →
        Handing (distribute chain n p).2.2 (distribute chain n p).2.1 ∧
          (distribute chain n p).2.2.filtered ++
              headBytes p.up.mem (distribute chain n p).2.1 =
            p.filtered ++ chainData p.up.mem chain n) ∧
      (distribute chain n p).2.2.filtered <+: p.filtered ++ chainData p.up.mem chain n := by
  induction chain generalizing n p with
  | nil =>
      obtain rfl : n = 0 := Nat.le_zero.mp hn
      refine ⟨fun _ => ⟨h, ?_⟩, ?_⟩
      · simp [distribute, chainData, headBytes]
      · exact List.prefix_append _ _
  | cons b chain ih =>
      have hok := (h.bufs b List.mem_cons_self).ok
      rw [distribute_cons]
      split
      · next h0 =>
          subst h0
          refine ⟨fun _ => ⟨h, ?_⟩, List.prefix_append _ _⟩
          simp [chainData]
      · split
        · next hfull =>
            have htail : ∀ a ∈ chain, a.pos = a.last := h.tail
            rw [chainData_full p.up.mem hok hfull htail]
            have hsame := handOut_same p { b with last := b.stop } b
            have hfiltered := handOut_filtered p { b with last := b.stop } b
            have hfree := handOut_free { b with last := b.stop } b h.free
            generalize handOut p { b with last := b.stop } b = q at hsame hfiltered hfree
            split
            · refine ⟨nofun, ?_⟩
              rw [hfiltered, ← List.append_assoc]
              exact List.prefix_append _ _
            · have hlen : n - (b.stop - b.last) ≤ (freeAddrs chain).length := by
                rw [freeAddrs_cons, List.length_append, List.length_range'] at hn
                omega
              obtain ⟨hdone, hpre⟩ := ih _ (h.next hsame.bufToFile hfree) hlen
              rw [hsame.up, hfiltered, List.append_assoc] at hdone hpre
              exact ⟨hdone, hpre⟩
        · next hpart =>
            -- the bytes end in this buffer
            rw [chainData_part p.up.mem hok (by omega)]
            refine ⟨fun _ => ⟨?_, rfl⟩, List.prefix_append _ _⟩
            obtain ⟨hb, hrest⟩ := List.pairwise_cons.mp h.apart
            refine ⟨?_, List.pairwise_cons.mpr ⟨hb, hrest⟩, h.tail, h.free⟩
            intro a ha
            obtain rfl | ha := List.mem_cons.mp ha
            · refine ⟨?_, (h.bufs b List.mem_cons_self).file⟩
              unfold RawBuf.Ok at hok ⊢
              dsimp only
              omega
            · exact h.bufs a (List.mem_cons_of_mem b ha)

/-! ## The invariant -/

/-- What was read is what was handed to the input filter, then the bytes of the first free buffer,
then what was read before the first call. -/
def Delivered (p : Pipe) : Prop :=
  p.up.socket.received = p.filtered ++ headBytes p.up.mem p.freeRawBufs ++
    chainData p.up.mem p.prereadBufs p.prereadSize

structure PipeOk (p : Pipe) : Prop where
  chain : ChainOk p p.freeRawBufs
  preread : ChainOk p p.prereadBufs
  room : p.prereadBufs ≠ [] → p.prereadSize ≤ (freeAddrs p.prereadBufs).length
  first : p.prereadBufs ≠ [] → ∀ b ∈ p.freeRawBufs, b.pos = b.last
  delivered : Delivered p

/-- After an abort nothing is handed out of order. -/
def Intact (p : Pipe) : Prop :=
  if p.phase = .aborted then p.filtered <+: p.up.socket.received else PipeOk p

theorem PipeOk.intact (h : PipeOk p) : Intact p := by
  unfold Intact
  split
  · have hdel : Delivered p := h.delivered
    unfold Delivered at hdel
    rw [hdel, List.append_assoc]
    exact List.prefix_append _ _
  · exact h

/-- Changes to other fields. -/
theorem PipeOk.of_same {q : Pipe} (h : PipeOk p) (hup : q.up = p.up)
    (hpre : q.prereadBufs = p.prereadBufs) (hsize : q.prereadSize = p.prereadSize)
    (hfree : q.freeRawBufs = p.freeRawBufs) (hfile : q.bufToFile = p.bufToFile)
    (hfilt : q.filtered = p.filtered) : PipeOk q := by
  refine ⟨?_, ?_, ?_, ?_, ?_⟩
  · rw [hfree]
    exact h.chain.of_eq hfile
  · rw [hpre]
    exact h.preread.of_eq hfile
  · rw [hpre, hsize]
    exact h.room
  · rw [hpre, hfree]
    exact h.first
  · have hdel : Delivered p := h.delivered
    unfold Delivered at hdel ⊢
    rw [hup, hpre, hsize, hfree, hfilt]
    exact hdel

theorem PipeOk.intact_of_same {q : Pipe} (h : PipeOk p) (hup : q.up = p.up)
    (hpre : q.prereadBufs = p.prereadBufs) (hsize : q.prereadSize = p.prereadSize)
    (hfree : q.freeRawBufs = p.freeRawBufs) (hfile : q.bufToFile = p.bufToFile)
    (hfilt : q.filtered = p.filtered) : Intact q :=
  (h.of_same hup hpre hsize hfree hfile hfilt).intact

theorem ChainOk.nil (p : Pipe) : ChainOk p [] := ⟨nofun, List.Pairwise.nil, nofun⟩

theorem headBytes_append (mem : Nat → Byte) (cl free : List RawBuf)
    (hfree : ∀ b ∈ free, b.pos = b.last) : headBytes mem (cl ++ free) = headBytes mem cl := by
  cases cl with
  | cons c cl => rfl
  | nil =>
      cases free with
      | nil => rfl
      | cons b free => exact bytes_of_empty mem (hfree b List.mem_cons_self)

/-- The rest of the chain and the buffers that came back are the free buffers. -/
theorem Handing.chainOk (h : Handing p chain) : ChainOk p (chain ++ p.freeRawBufs) := by
  refine ⟨h.bufs, h.apart, ?_⟩
  intro b hb
  cases chain with
  | nil => exact h.free b (List.mem_of_mem_tail hb)
  | cons c cl =>
      obtain hb | hb := List.mem_append.mp hb
      · exact h.tail b hb
      · exact h.free b hb

/-- `n` bytes in `chain` are handed out. -/
theorem deliver_intact (n : Nat) (hchain : ChainOk p chain) (hn : n ≤ (freeAddrs chain).length)
    (hpre : p.prereadBufs = [])
    (hdel : p.up.socket.received = p.filtered ++ chainData p.up.mem chain n) :
    Intact (deliver chain n p) := by
  generalize hq : ({ p with readLength := p.readLength + n, freeRawBufs := [] } : Pipe) = q
  have hhand : Handing q chain := by
    subst hq
    refine ⟨?_, ?_, hchain.tail, nofun⟩
    · intro b hb
      rw [List.append_nil] at hb
      exact ⟨(hchain.bufs b hb).ok, (hchain.bufs b hb).file⟩
    · rw [List.append_nil]
      exact hchain.apart
  have hqup : q.up = p.up ∧ q.filtered = p.filtered ∧ q.prereadBufs = [] := by
    subst hq
    exact ⟨rfl, rfl, hpre⟩
  have hsame := distribute_same chain n q
  obtain ⟨hdone, hprefix⟩ := distribute_spec n hhand hn
  rw [hqup.1, hqup.2.1, ← hdel] at hprefix
  rw [hqup.1, hqup.2.1, ← hdel] at hdone
  unfold deliver
  dsimp only
  rw [hq]
  generalize (if p.limitRate = 0 then 0 else n * 1000 / p.limitRate) = delay
  generalize distribute chain n q = r at hsame hdone hprefix
  obtain ⟨ok, cl, p'⟩ := r
  have hup : p'.up = p.up := hsame.up.trans hqup.1
  cases ok with
  | false =>
      unfold Intact
      rw [if_pos rfl]
      show p'.filtered <+: p'.up.socket.received
      rw [hup]
      exact hprefix
  | true =>
      obtain ⟨hhand', hbytes⟩ := hdone rfl
      have hpre' : p'.prereadBufs = [] := hsame.prereadBufs.trans hqup.2.2
      have hfin : PipeOk { p' with freeRawBufs := cl ++ p'.freeRawBufs } := by
        refine ⟨hhand'.chainOk.of_eq rfl, ?_, ?_, ?_, ?_⟩
        · show ChainOk _ p'.prereadBufs
          rw [hpre']
          exact .nil _
        · intro hne
          exact absurd hpre' hne
        · intro hne
          exact absurd hpre' hne
        · show p'.up.socket.received = p'.filtered ++ headBytes p'.up.mem (cl ++ p'.freeRawBufs) ++
            chainData p'.up.mem p'.prereadBufs p'.prereadSize
          rw [hup, hpre', headBytes_append _ _ _ hhand'.free]
          simpa [chainData, headBytes] using hbytes.symm
      dsimp only
      split
      · exact hfin.intact_of_same rfl rfl rfl rfl rfl rfl
      · exact hfin.intact

/-- A turn of the loop that reads. -/
theorem recvInto_intact (fuel limit : Nat) (cl rest : List RawBuf) (hchain : ChainOk p (cl ++ rest))
    (hpre : p.prereadBufs = [])
    (hdel : p.up.socket.received = p.filtered ++ headBytes p.up.mem (cl ++ rest))
    (hok : PipeOk p) : Intact (recvInto fuel limit cl rest p) := by
  unfold recvInto
  split
  · exact hok.intact_of_same rfl rfl rfl rfl rfl rfl
  · next hne =>
      cases hr : ngxReadvChain fuel cl limit p.up with
      | none => exact hok.intact_of_same rfl rfl rfl rfl rfl rfl
      | some res =>
          obtain ⟨r, up⟩ := res
          have hcl : ∀ b ∈ cl, b.Ok := fun b hb => (hchain.bufs b (List.mem_append_left rest hb)).ok
          have hall : ∀ b ∈ cl ++ rest, b.Ok := fun b hb => (hchain.bufs b hb).ok
          obtain ⟨xs, hstored, -, hrep⟩ := ngxReadvChain_spec hcl hne hr
          have hfree : freeAddrs (cl ++ rest) = freeAddrs cl ++ freeAddrs rest :=
            List.flatMap_append
          have hstored' : Stored (freeAddrs (cl ++ rest)) p.up xs up := by
            rw [hfree]
            exact hstored.mono
          have hnodup := freeAddrs_nodup hall hchain.apart
          have hhead : headBytes up.mem (cl ++ rest) = headBytes p.up.mem (cl ++ rest) := by
            rw [hstored'.mem]
            exact headBytes_scatter _ hall hchain.apart _ _
          have hnew : ((freeAddrs (cl ++ rest)).take xs.length).map up.mem = xs := by
            have hlen : ((freeAddrs (cl ++ rest)).take xs.length).length = xs.length := by
              rw [List.length_take, Nat.min_eq_left hstored'.room]
            have hread := map_scatter_take p.up.mem xs (hnodup.sublist (List.take_sublist _ _))
              (Nat.le_of_eq hlen.symm)
            rw [List.take_take, Nat.min_self, ← hstored'.mem] at hread
            exact hread
          have hbytes : up.socket.received = p.filtered ++ chainData up.mem (cl ++ rest) xs.length := by
            rw [hstored'.received, hdel, chainData, hhead, hnew, List.append_assoc]
          -- a result other than a number of bytes
          have hnone : xs = [] → PipeOk { p with up := up, freeRawBufs := cl ++ rest } := by
            rintro rfl
            refine ⟨hchain.of_eq rfl, ?_, fun h => absurd hpre h, fun h => absurd hpre h, ?_⟩
            · show ChainOk _ p.prereadBufs
              rw [hpre]
              exact .nil _
            · show up.socket.received = p.filtered ++ headBytes up.mem (cl ++ rest) ++
                chainData up.mem p.prereadBufs p.prereadSize
              rw [hbytes, hpre]
              simp [chainData, headBytes]
          dsimp only
          cases r with
          | error => exact (hnone hrep.1).intact_of_same rfl rfl rfl rfl rfl rfl
          | again => exact (hnone hrep).intact_of_same rfl rfl rfl rfl rfl rfl
          | bytes n =>
              obtain rfl : n = xs.length := hrep.1
              dsimp only
              split
              · next h0 =>
                  have hxs : xs = [] := List.length_eq_zero_iff.mp h0
                  exact (hnone hxs).intact_of_same rfl rfl rfl rfl rfl rfl
              · exact deliver_intact xs.length (hchain.of_eq rfl) hstored'.room hpre hbytes

/-! ## Ownership of the raw buffers -/

/-- The memory of buffers that were saved to a file is apart from the free buffers. -/
structure SaveOk (p : Pipe) (bufs : List (Nat × Nat)) : Prop where
  room : ∀ r ∈ bufs, r.1 < r.2
  apart : (bufs.map fun r => RawBuf.fresh r.1 r.2).Pairwise Apart
  free : ∀ a ∈ p.freeRawBufs, ∀ r ∈ bufs, Apart a (.fresh r.1 r.2)

/-- The promises of the rest of nginx: a buffer that is allocated or comes back has room and is
apart from the free ones. -/
def OwnedEvent (p : Pipe) : PipeEvent → Prop
  | .turn env =>
    (∀ a, env.alloc = some a → p.BufOk (.fresh a (a + p.bufsSize))) ∧
      ∀ bufs, env.tempWrite = .saved bufs → SaveOk p bufs
  | .save (some (.saved bufs)) => SaveOk p bufs
  | .recycle b => p.BufOk b ∧ ∀ a ∈ p.freeRawBufs, Apart a b
  | _ => True

theorem savedToFile_chain {bufs : List (Nat × Nat)} (h : ChainOk p p.freeRawBufs)
    (hs : SaveOk p bufs) :
    ChainOk (savedToFile p bufs) (savedToFile p bufs).freeRawBufs ∧
      ∀ mem, headBytes mem (savedToFile p bufs).freeRawBufs = headBytes mem p.freeRawBufs := by
  have hfresh : ∀ b ∈ bufs.map (fun r => RawBuf.fresh r.1 r.2), b.Ok ∧ b.pos = b.last := by
    intro b hb
    obtain ⟨r, hr, rfl⟩ := List.mem_map.mp hb
    exact ⟨⟨Nat.le_refl _, Nat.le_refl _, hs.room r hr⟩, rfl⟩
  refine ⟨⟨?_, ?_, ?_⟩, fun mem => headBytes_append mem _ _ fun b hb => (hfresh b hb).2⟩
  · intro b hb
    obtain hb | hb := List.mem_append.mp hb
    · exact ⟨(h.bufs b hb).ok, nofun⟩
    · exact ⟨(hfresh b hb).1, nofun⟩
  · refine List.pairwise_append.mpr ⟨h.apart, hs.apart, ?_⟩
    intro a ha b hb
    obtain ⟨r, hr, rfl⟩ := List.mem_map.mp hb
    exact hs.free a ha r hr
  · intro b hb
    show b.pos = b.last
    have hb' : b ∈ (p.freeRawBufs ++ bufs.map fun r => RawBuf.fresh r.1 r.2).tail := hb
    cases hfree : p.freeRawBufs with
    | nil =>
        rw [hfree, List.nil_append] at hb'
        exact (hfresh b (List.mem_of_mem_tail hb')).2
    | cons head rest =>
        rw [hfree] at hb'
        obtain hb' | hb' := List.mem_append.mp hb'
        · exact h.tail b (by rw [hfree]; exact hb')
        · exact (hfresh b hb').2

/-- The chain that a turn of the loop reads into. -/
def PickOk (p : Pipe) : Pick → Prop
  | .stop q => Intact q
  | .into cl rest q =>
    PipeOk q ∧ ChainOk q (cl ++ rest) ∧ q.prereadBufs = p.prereadBufs ∧
      q.up.socket.received = q.filtered ++ headBytes q.up.mem (cl ++ rest)

theorem PipeOk.received (h : PipeOk p) (hpre : p.prereadBufs = []) :
    p.up.socket.received = p.filtered ++ headBytes p.up.mem p.freeRawBufs := by
  have hdel : Delivered p := h.delivered
  unfold Delivered at hdel
  rw [hdel, hpre]
  simp [chainData, headBytes]

theorem pickFree_ok (h : PipeOk p) (hpre : p.prereadBufs = []) : PickOk p (pickFree p) := by
  have hrec := h.received hpre
  unfold pickFree
  split
  · refine ⟨h, ?_, rfl, ?_⟩
    · rw [List.take_append_drop]
      exact h.chain
    · rw [List.take_append_drop]
      exact hrec
  · refine ⟨h, ?_, rfl, ?_⟩
    · rw [List.append_nil]
      exact h.chain
    · rw [List.append_nil]
      exact hrec

theorem PipeOk.saved {bufs : List (Nat × Nat)} (h : PipeOk p) (hs : SaveOk p bufs) :
    PipeOk (savedToFile p bufs) := by
  obtain ⟨hchain, hhead⟩ := savedToFile_chain h.chain hs
  refine ⟨hchain, ?_, h.room, ?_, ?_⟩
  · exact ⟨fun b hb => ⟨(h.preread.bufs b hb).ok, nofun⟩, h.preread.apart, h.preread.tail⟩
  · intro hne b hb
    obtain hb | hb := List.mem_append.mp hb
    · exact h.first hne b hb
    · obtain ⟨r, -, rfl⟩ := List.mem_map.mp hb
      rfl
  · have hdel : Delivered p := h.delivered
    unfold Delivered at hdel ⊢
    rw [hhead]
    exact hdel

theorem pickChain_ok (env : TurnEnv) (h : PipeOk p) (hpre : p.prereadBufs = [])
    (hown : OwnedEvent p (.turn env)) : PickOk p (pickChain env p) := by
  unfold pickChain
  split
  · exact pickFree_ok h hpre
  · next hnil =>
      have hfree : p.freeRawBufs = [] := not_not.mp hnil
      have hrec := h.received hpre
      split
      · split
        · exact h.intact_of_same rfl rfl rfl rfl rfl rfl
        · next a ha =>
            have hbuf := hown.1 a ha
            refine ⟨h.of_same rfl rfl rfl rfl rfl rfl, ⟨?_, List.pairwise_singleton _ _, nofun⟩, rfl, ?_⟩
            · intro b hb
              obtain rfl : b = .fresh a (a + p.bufsSize) := by simpa using hb
              exact ⟨hbuf.ok, hbuf.file⟩
            · show p.up.socket.received = p.filtered ++ RawBuf.bytes p.up.mem (.fresh a (a + p.bufsSize))
              rw [bytes_of_empty _ rfl, hrec, hfree]
              rfl
      · split
        · exact h.intact_of_same rfl rfl rfl rfl rfl rfl
        · split
          · split
            · exact h.intact_of_same rfl rfl rfl rfl rfl rfl
            · exact h.intact_of_same rfl rfl rfl rfl rfl rfl
            · next bufs hbufs =>
                have hs := hown.2 bufs hbufs
                exact pickFree_ok (h.saved hs) hpre
          · exact h.intact_of_same rfl rfl rfl rfl rfl rfl

/-! ## Events -/

theorem turn_intact (fuel : Nat) (env : TurnEnv) (h : PipeOk p) (hown : OwnedEvent p (.turn env)) :
    Intact (turn fuel env p) := by
  unfold turn
  split
  · exact h.intact_of_same rfl rfl rfl rfl rfl rfl
  · split
    · exact h.intact_of_same rfl rfl rfl rfl rfl rfl
    · split
      · next hne =>
          have hdel : Delivered p := h.delivered
          unfold Delivered at hdel
          have hhead : headBytes p.up.mem p.freeRawBufs = [] := by
            have hempty := headBytes_append p.up.mem [] p.freeRawBufs (h.first hne)
            exact hempty
          rw [hhead, List.append_nil] at hdel
          exact deliver_intact p.prereadSize (h.preread.of_eq rfl) (h.room hne) rfl hdel
      · next hpre =>
          have hpre' : p.prereadBufs = [] := not_not.mp hpre
          split
          · exact h.intact_of_same rfl rfl rfl rfl rfl rfl
          · split
            · exact h.intact_of_same rfl rfl rfl rfl rfl rfl
            · have hpick := pickChain_ok env h hpre' hown
              dsimp only
              generalize pickChain env p = pick at hpick
              cases pick with
              | stop q => exact hpick
              | into cl rest q =>
                  obtain ⟨hq, hchain, hqpre, hrec⟩ := hpick
                  exact recvInto_intact fuel _ cl rest hchain (hqpre.trans hpre') hrec hq

/-- The first free buffer is handed out, and perhaps comes back. -/
theorem PipeOk.handFirst {q : Pipe} {rest : List RawBuf} (h : PipeOk p)
    (hp : p.freeRawBufs = b :: rest) (hup : q.up = p.up) (hpre : q.prereadBufs = p.prereadBufs)
    (hsize : q.prereadSize = p.prereadSize) (hfile : q.bufToFile = p.bufToFile)
    (hfilt : q.filtered = p.filtered ++ b.bytes p.up.mem)
    (hfree : q.freeRawBufs = rest ∨ q.freeRawBufs = p.emptied b :: rest) : PipeOk q := by
  have hchain := h.chain
  rw [hp] at hchain
  have hhand : Handing { p with freeRawBufs := rest } [b] :=
    ⟨fun a ha => ⟨(hchain.bufs a ha).ok, (hchain.bufs a ha).file⟩, hchain.apart, nofun, hchain.tail⟩
  have hnext : Handing q [] := hhand.next hfile hfree
  have hempty : headBytes q.up.mem q.freeRawBufs = [] :=
    headBytes_append q.up.mem [] q.freeRawBufs hnext.free
  refine ⟨hnext.chainOk, ?_, ?_, fun _ => hnext.free, ?_⟩
  · rw [hpre]
    exact h.preread.of_eq hfile
  · rw [hpre, hsize]
    exact h.room
  · have hdel : Delivered p := h.delivered
    unfold Delivered at hdel ⊢
    rw [hempty, hfilt, hup, hpre, hsize, hdel, hp, List.append_nil]
    rfl

theorem finishLength_ok (h : PipeOk p) : PipeOk (finishLength p) := by
  unfold finishLength
  split
  · next b rest length hfree hlength =>
      have htail : ∀ a ∈ rest, a.pos = a.last := by
        have := h.chain.tail
        rw [hfree] at this
        exact this
      split
      · have hsame := handOut_same { p with freeRawBufs := rest } b b
        have hok : PipeOk (handOut { p with freeRawBufs := rest } b b) :=
          h.handFirst hfree hsame.up hsame.prereadBufs hsame.prereadSize hsame.bufToFile
            (handOut_filtered _ b b) (handOut_free b b htail)
        show PipeOk (if _ then { handOut { p with freeRawBufs := rest } b b with phase := .aborted }
          else handOut { p with freeRawBufs := rest } b b)
        split
        · exact hok.of_same rfl rfl rfl rfl rfl rfl
        · exact hok
      · exact h
  · exact h

theorem finishDone_ok (h : PipeOk p) : PipeOk (finishDone p) := by
  unfold finishDone
  split
  · exact h.of_same rfl rfl rfl rfl rfl rfl
  · exact h

theorem finishEnd_intact (h : PipeOk p) : Intact (finishEnd p) := by
  unfold finishEnd
  split
  · exact h.intact
  · next b rest hfree =>
      split
      · dsimp only
        split
        · -- the buffer was handed out all the same
          have hdel : Delivered p := h.delivered
          unfold Delivered at hdel
          unfold Intact
          rw [if_pos rfl]
          show p.filtered ++ b.bytes p.up.mem <+: p.up.socket.received
          rw [hdel, hfree]
          exact List.prefix_append _ _
        · apply PipeOk.intact
          refine h.handFirst hfree rfl rfl rfl rfl rfl ?_
          dsimp only
          split
          · exact .inr rfl
          · exact .inl rfl
      · exact h.intact

theorem Intact.pipeOk (h : Intact p) (hphase : p.phase ≠ .aborted) : PipeOk p := by
  unfold Intact at h
  rw [if_neg hphase] at h
  exact h

theorem finish_intact (h : PipeOk p) : Intact (finish p) := by
  have hlength := finishLength_ok h
  unfold finish unlessAborted
  split
  · exact hlength.intact
  · have hend := finishEnd_intact (finishDone_ok hlength)
    dsimp only
    split
    · exact hend
    · next hphase => exact (hend.pipeOk hphase).intact_of_same rfl rfl rfl rfl rfl rfl

theorem save_intact {write : Option TempWrite} (h : PipeOk p) (hown : OwnedEvent p (.save write)) :
    Intact (save write p) := by
  unfold save
  split
  · exact h.intact_of_same rfl rfl rfl rfl rfl rfl
  · split
    · split
      · next bufs =>
          have hs : SaveOk p bufs := hown
          exact (h.saved hs).intact_of_same rfl rfl rfl rfl rfl rfl
      · exact h.intact_of_same rfl rfl rfl rfl rfl rfl
      · exact h.intact_of_same rfl rfl rfl rfl rfl rfl
    · exact h.intact_of_same rfl rfl rfl rfl rfl rfl

theorem recycle_ok (h : PipeOk p) (hown : OwnedEvent p (.recycle b)) : PipeOk (addFreeBuf p b) := by
  obtain ⟨hchain, hhead⟩ := addFreeBuf_spec h.chain hown.1 hown.2
  refine ⟨hchain.of_eq rfl, h.preread.of_eq rfl, h.room, ?_, ?_⟩
  · intro hne a ha
    rw [addFreeBuf_front p b (h.first hne)] at ha
    obtain rfl | ha := List.mem_cons.mp ha
    · exact (emptied_region p b).2.2
    · exact h.first hne a ha
  · have hdel : Delivered p := h.delivered
    unfold Delivered at hdel ⊢
    rw [hhead]
    exact hdel

theorem pipeStep_intact (fuel : Nat) (ev : PipeEvent) (h : Intact p) (hown : OwnedEvent p ev) :
    Intact (pipeStep fuel p ev) := by
  by_cases hphase : p.phase = .aborted
  · -- nothing happens any more
    have hstay : pipeStep fuel p ev = p := by
      unfold pipeStep
      rw [hphase]
    rw [hstay]
    exact h
  · have hok := h.pipeOk hphase
    unfold pipeStep
    split
    · unfold enter
      dsimp only
      split
      · exact hok.intact_of_same rfl rfl rfl rfl rfl rfl
      · exact hok.intact_of_same rfl rfl rfl rfl rfl rfl
    · exact turn_intact fuel _ hok hown
    · exact finish_intact hok
    · exact save_intact hok hown
    · exact (recycle_ok hok hown).intact
    · have hdel : Delivered p := hok.delivered
      apply PipeOk.intact
      exact ⟨hok.chain.of_eq rfl, hok.preread.of_eq rfl, hok.room, hok.first, hdel⟩
    · exact hok.intact_of_same rfl rfl rfl rfl rfl rfl
    · exact h

/-! ## Every run -/

/-- In every run the bytes handed to the input filter, then those in the first free buffer, are the
bytes read from the socket, until a call is aborted. And for every chain of buffers with free space,
every limit and every socket, `ngx_readv_chain` returns unless it is interrupted forever; it reports
the bytes it stored, 0 only at the end of the stream and `NGX_AGAIN` only if it stored nothing. -/
theorem upstream_delivered (fuel : Nat) :
    (∀ (p : Pipe) (evs : List PipeEvent), PipeOk p → Meets (pipeStep fuel) OwnedEvent p evs →
      Always (pipeStep fuel)
        (fun q => q.filtered <+: q.up.socket.received ∧ (q.phase ≠ .aborted → Delivered q)) p evs) ∧
    ∀ (chain : List RawBuf) (limit : Nat) (u : Upstream), chain ≠ [] → (∀ b ∈ chain, b.Ok) →
      (∀ K, u.socket.FinitelyInterrupted K → K - u.socket.calls < fuel →
        (ngxReadvChain fuel chain limit u).isSome) ∧
      ∀ r u', ngxReadvChain fuel chain limit u = some (r, u') →
        ∃ xs, Stored (freeAddrs chain) u xs u' ∧ (limit ≠ 0 → xs.length ≤ limit) ∧
          (∀ n, r = .bytes n → n = xs.length) ∧
          (r = .bytes 0 → (u.logError = .err ∨ ∀ i code, u.socket.outcome i ≠ .fail (.other code)) →
            ∃ i, u.socket.calls ≤ i ∧ i < u'.socket.calls ∧ u.socket.outcome i = .eof) ∧
          (r = .again → xs = []) ∧
          (r = .error → xs = [] ∧ ∃ i code, u.socket.outcome i = .fail (.other code)) := by
  constructor
  · intro p evs hp hown
    have hall : Always (pipeStep fuel) Intact p evs :=
      Always.of_inductive (fun q ev hq hev => pipeStep_intact fuel ev hq hev) hp.intact hown
    refine hall.mono ?_
    intro q hq
    constructor
    · by_cases hphase : q.phase = .aborted
      · unfold Intact at hq
        rw [if_pos hphase] at hq
        exact hq
      · have hdel : Delivered q := (hq.pipeOk hphase).delivered
        unfold Delivered at hdel
        rw [hdel, List.append_assoc]
        exact List.prefix_append _ _
    · intro hphase
      exact (hq.pipeOk hphase).delivered
  · intro chain limit u hne hok
    refine ⟨fun K hK hfuel => ngxReadvChain_isSome limit hok hne hK hfuel, ?_⟩
    intro r u' h
    obtain ⟨xs, hstored, hlim, hrep⟩ := ngxReadvChain_spec hok hne h
    refine ⟨xs, hstored, hlim, ?_, ?_, ?_, ?_⟩
    · rintro n rfl
      exact hrep.1
    · rintro rfl hlog
      obtain ⟨i, hle, hlt, hout | ⟨code, hout, hign⟩⟩ := hrep.2 rfl
      · exact ⟨i, hle, hlt, hout⟩
      · obtain hlog | hlog := hlog
        · rw [hlog, errorIgnored] at hign
          simp at hign
        · exact absurd hout (hlog i code)
    · rintro rfl
      exact hrep
    · rintro rfl
      obtain ⟨hnil, i, code, -, -, hout⟩ := hrep
      exact ⟨hnil, i, code, hout⟩

/-- A pipe at its start, with the raw buffers `free`. -/
def Pipe.start (free : List RawBuf) (outcome : Nat → ReadOutcome) : Pipe where
  up := ⟨fun _ => 0, ⟨outcome, 0, []⟩, true, false, false, .err⟩
  upstreamEof := false
  upstreamError := false
  upstreamDone := false
  upstreamBlocked := false
  prereadBufs := []
  prereadSize := 0
  freeRawBufs := free
  bufToFile := none
  singleBuf := false
  cacheable := false
  allocated := free.length
  bufsNum := free.length
  bufsSize := 4
  limitRate := 0
  delayed := false
  readLength := 0
  length := none
  read := false
  filter := fun _ => ⟨false, false, none, false⟩
  filterCalls := 0
  filtered := []
  phase := .idle

theorem Pipe.start_ok {free : List RawBuf} (outcome : Nat → ReadOutcome) (hok : ∀ b ∈ free, b.Ok)
    (hap : free.Pairwise Apart) (hempty : ∀ b ∈ free, b.pos = b.last) :
    PipeOk (.start free outcome) := by
  have hhead : headBytes (fun _ => 0) free = [] := headBytes_append _ [] free hempty
  refine ⟨⟨fun b hb => ⟨hok b hb, nofun⟩, hap, fun b hb => hempty b (List.mem_of_mem_tail hb)⟩,
    .nil _, absurd rfl, absurd rfl, ?_⟩
  show [] = [] ++ headBytes (fun _ => 0) free ++ chainData (fun _ => 0) [] 0
  rw [hhead]
  rfl

/-- Two buffers of four bytes. After an interruption four bytes arrive, then two more. -/
theorem two_portions_delivered :
    let outcome : Nat → ReadOutcome
      | 0 => .fail .eintr
      | 1 => .give 1 [2, 3, 4]
      | 2 => .give 5 [6]
      | _ => .eof
    let p := Pipe.start [.fresh 100 104, .fresh 200 204] outcome
    let evs := [PipeEvent.enter, .turn ⟨0, none, false, false, .busy⟩]
    let q := run (pipeStep 3) p evs
    q.filtered = [1, 2, 3, 4] ∧ headBytes q.up.mem q.freeRawBufs = [5, 6] ∧
      q.up.socket.received = [1, 2, 3, 4, 5, 6] ∧ Delivered q := by
  intro outcome p evs q
  have hp : PipeOk p := Pipe.start_ok outcome (by decide) (by decide) (by decide)
  have hown : Meets (pipeStep 3) OwnedEvent p evs := ⟨trivial, ⟨nofun, nofun⟩, trivial⟩
  refine ⟨by decide +kernel, by decide +kernel, by decide +kernel, ?_⟩
  exact ((upstream_delivered 3).1 p evs hp hown).last.2 (by decide +kernel)

end WasiPorts.Nginx
