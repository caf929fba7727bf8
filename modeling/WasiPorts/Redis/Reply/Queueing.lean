import WasiPorts.Redis.Reply.Invariant

/-!
# Queueing appends to the reply stream

Every way a reply enters a client (`_addReplyToBufferOrList`, a deferred length glued to its
neighbours, blocks linked from elsewhere) extends `remaining` by the bytes of the reply and touches
nothing else.
-/

namespace WasiPorts.Redis.Reply

/-! ## Extending a block list -/

/-- `l'` is the block list `l` with the bytes `s` added at its end. -/
def Extends (l l' : List ReplyBlock) (s : List Byte) : Prop :=
  ∀ sent, HeadOk sent l → HeadOk sent l' ∧ remainingFrom sent l' = remainingFrom sent l ++ s

theorem Extends.trans {l l' l'' : List ReplyBlock} {s t : List Byte} (h : Extends l l' s)
    (h' : Extends l' l'' t) : Extends l l'' (s ++ t) := by
  intro sent hsent
  obtain ⟨h1, h2⟩ := h sent hsent
  obtain ⟨h3, h4⟩ := h' sent h1
  exact ⟨h3, by rw [h4, h2, List.append_assoc]⟩

theorem Extends.blockBytes_eq {l l' : List ReplyBlock} {s : List Byte} (h : Extends l l' s) :
    blockBytes l' = blockBytes l ++ s := by
  have := (h 0 (headOk_zero l)).2
  rwa [remainingFrom_zero, remainingFrom_zero] at this

theorem extends_append (l bs : List ReplyBlock) : Extends l (l ++ bs) (blockBytes bs) := by
  intro sent hsent
  cases l with
  | nil =>
      have hzero : sent = 0 := hsent
      subst hzero
      simp
  | cons o rest => exact ⟨hsent, by simp [remainingFrom]⟩

/-- Replacing the last block by one that holds more bytes extends the list. -/
theorem extends_last (l : List ReplyBlock) {o o' : ReplyBlock} {s : List Byte}
    (hbuf : o'.buf = o.buf ++ s) : Extends (l ++ [o]) (l ++ [o']) s := by
  intro sent hsent
  cases l with
  | nil =>
      have hle : sent ≤ o.buf.length := by
        rcases hsent with h | h
        · omega
        · exact Nat.le_of_lt h
      refine ⟨?_, ?_⟩
      · rcases hsent with h | h
        · exact Or.inl h
        · refine Or.inr ?_
          simp only [ReplyBlock.used, hbuf, List.length_append] at h ⊢
          omega
      · simp [remainingFrom, hbuf, List.drop_append_of_le_length hle]
  | cons p rest => exact ⟨hsent, by simp [remainingFrom, hbuf]⟩

/-- Filling the last block extends the list by what fits and keeps its size. -/
theorem extends_fill {l : List ReplyBlock} {o o' : ReplyBlock} {s rest : List Byte}
    (hlast : l.getLast? = some o) (hfill : o.fill s = (o', rest)) :
    ∃ t, s = t ++ rest ∧ Extends l (l.dropLast ++ [o']) t ∧
      blockSize (l.dropLast ++ [o']) = blockSize l := by
  have hl : l = l.dropLast ++ [o] := (List.dropLast_append_getLast? o hlast).symm
  obtain ⟨rfl, rfl⟩ := Prod.mk.inj hfill
  refine ⟨s.take (min s.length (o.size - o.used)), (List.take_append_drop _ s).symm, ?_, ?_⟩
  · conv =>
      arg 1
      rw [hl]
    exact extends_last _ rfl
  · conv_rhs => rw [hl]
    simp

/-- What queueing the bytes `s` does to a client. -/
structure Appends (c c' : Client) (s : List Byte) : Prop where
  ok : ClientOk c'
  rest : remaining c' = remaining c ++ s
  conn : c'.conn = c.conn

theorem Appends.refl {c : Client} (hc : ClientOk c) : Appends c c [] :=
  ⟨hc, (List.append_nil _).symm, rfl⟩

theorem Appends.trans {a b c : Client} {s t : List Byte} (h : Appends a b s)
    (h' : Appends b c t) : Appends a c (s ++ t) :=
  ⟨h'.ok, by rw [h'.rest, h.rest, List.append_assoc], h'.conn.trans h.conn⟩

/-- Extending the reply list, with its size kept in step, queues the bytes. -/
theorem appends_of_extends {c : Client} (hc : ClientOk c) {l : List ReplyBlock} {rb : Int}
    {s : List Byte} (hl : Extends c.reply l s)
    (hrb : rb - blockSize l = c.replyBytes - blockSize c.reply) :
    Appends c { c with reply := l, replyBytes := rb } s := by
  obtain ⟨hsent, hbytes⟩ := hc
  have hsize : rb = blockSize l := by omega
  by_cases hbuf : c.buf = []
  · simp only [SentOk, if_pos hbuf] at hsent
    obtain ⟨h1, h2⟩ := hl _ hsent
    exact ⟨⟨by simpa only [SentOk, if_pos hbuf] using h1, hsize⟩,
      by simpa only [remaining, if_pos hbuf] using h2, rfl⟩
  · refine ⟨⟨by simpa only [SentOk, if_neg hbuf] using hsent, hsize⟩, ?_, rfl⟩
    simp only [remaining, if_neg hbuf, hl.blockBytes_eq, List.append_assoc]

/-! ## The queueing functions -/

theorem addReplyProtoToList_appends {c : Client} (hc : ClientOk c) (s : List Byte)
    (slack : Nat) : Appends c (addReplyProtoToList c s slack) s := by
  unfold addReplyProtoToList
  split
  · split
    · next hs =>
        subst hs
        exact Appends.refl hc
    · refine appends_of_extends hc ?_ (by simp)
      simpa [ReplyBlock.alloc] using extends_append c.reply [ReplyBlock.alloc s slack]
  · next tail htail =>
      rcases hf : tail.fill s with ⟨tail', rest⟩
      obtain ⟨t, rfl, hext, hsize⟩ := extends_fill htail hf
      simp only
      split
      · next hnil =>
          rw [hnil, List.append_nil]
          exact appends_of_extends hc hext (by rw [hsize])
      · refine appends_of_extends hc ?_ (by rw [blockSize_append, hsize]; simp)
        simpa [ReplyBlock.alloc] using hext.trans (extends_append _ [ReplyBlock.alloc rest slack])

/-- The static buffer takes the start of a reply only while the list is empty, so the bytes go to
the end of the stream. -/
theorem addReplyToBuffer_appends {c c' : Client} {s : List Byte} {n : Nat} (hc : ClientOk c)
    (h : addReplyToBuffer c s = (n, c')) : Appends c c' (s.take n) := by
  unfold addReplyToBuffer at h
  simp only at h
  split at h
  · cases h
    exact Appends.refl hc
  · next hreply =>
      have hnil : c.reply = [] := by simpa using hreply
      obtain ⟨hsent, hbytes⟩ := hc
      cases h
      generalize s.take (min s.length (c.bufUsableSize - c.buf.length)) = t
      by_cases hbuf : c.buf = []
      · have hzero : c.sentlen = 0 := by simpa [SentOk, hbuf, hnil, HeadOk] using hsent
        refine ⟨⟨?_, hbytes⟩, ?_, rfl⟩
        · by_cases ht : t = []
          · simp [SentOk, hbuf, ht, hzero]
          · have : 0 < t.length := List.length_pos_of_ne_nil ht
            simp [SentOk, hbuf, ht, hzero, this]
        · by_cases ht : t = [] <;> simp [remaining, hbuf, hnil, ht, hzero]
      · have hlt : c.sentlen < c.buf.length := by simpa [SentOk, hbuf] using hsent
        refine ⟨⟨?_, hbytes⟩, ?_, rfl⟩
        · simp only [SentOk, List.append_eq_nil_iff, hbuf, false_and, if_false,
            List.length_append]
          omega
        · simp [remaining, hbuf, hnil, List.drop_append_of_le_length (Nat.le_of_lt hlt)]

theorem addReplyToBufferOrList_appends {c : Client} (hc : ClientOk c) (s : List Byte)
    (slack : Nat) : Appends c (addReplyToBufferOrList c s slack)
      (if c.closeAfterReply then [] else s) := by
  unfold addReplyToBufferOrList
  split
  · exact Appends.refl hc
  · rcases hb : addReplyToBuffer c s with ⟨n, c'⟩
    have happ := addReplyToBuffer_appends hc hb
    simp only
    split
    · have h := happ.trans (addReplyProtoToList_appends happ.ok (s.drop n) slack)
      rwa [List.take_append_drop] at h
    · next hge => rwa [List.take_of_length_le (by omega)] at happ

/-- The bytes that `addReplyProto` queues: none for a client that takes no replies. -/
def queued (c : Client) (s : List Byte) : List Byte :=
  if prepareClientToWrite c && !c.closeAfterReply then s else []

theorem addReplyProto_appends {c : Client} (hc : ClientOk c) (s : List Byte) (slack : Nat) :
    Appends c (addReplyProto c s slack) (queued c s) := by
  have h := addReplyToBufferOrList_appends hc s slack
  unfold addReplyProto queued
  by_cases hp : prepareClientToWrite c <;> by_cases hr : c.closeAfterReply
  · simpa [hp, hr] using h
  · simpa [hp, hr] using h
  · simpa [hp] using Appends.refl hc
  · simpa [hp] using Appends.refl hc

theorem trimReplyUnusedTailSpace_appends {c : Client} (hc : ClientOk c) (slack : Nat) :
    Appends c (trimReplyUnusedTailSpace c slack) [] := by
  unfold trimReplyUnusedTailSpace
  split
  · exact Appends.refl hc
  · next tail htail =>
      split
      · have hl : c.reply = c.reply.dropLast ++ [tail] :=
          (List.dropLast_append_getLast? tail htail).symm
        have hext : Extends c.reply (c.reply.dropLast ++ [tail.trim slack]) [] := by
          conv =>
            arg 1
            rw [hl]
          exact extends_last _ (List.append_nil _).symm
        refine appends_of_extends hc hext ?_
        conv_rhs => rw [hl]
        simp only [blockSize_append, blockSize_cons, blockSize_nil]
        omega
      · exact Appends.refl hc

/-- Gluing puts the header in front of the blocks after the placeholder. -/
theorem glueDeferred_spec {s : List Byte} {slack added : Nat} {next blocks : List ReplyBlock}
    (h : glueDeferred s slack next = (blocks, added)) :
    blockBytes blocks = s ++ blockBytes next ∧ blockSize blocks = blockSize next + added := by
  unfold glueDeferred at h
  split at h
  · cases h
    simp
  · split at h
    · cases h
      simp
    · cases h
      simp
      omega

/-- `setDeferredReply` queues the header and the blocks linked behind the placeholder, whose sizes
`reply_bytes` counts already. -/
theorem setDeferredReply_appends {c : Client} (hc : ClientOk c) (s : List Byte) (slack : Nat)
    (next : List ReplyBlock) :
    Appends c (setDeferredReply { c with replyBytes := c.replyBytes + blockSize next } s slack next)
      (s ++ blockBytes next) := by
  simp only [setDeferredReply]
  split
  · next hnone =>
      have hnil : c.reply = [] := List.getLast?_eq_none_iff.mp hnone
      rcases hg : glueDeferred s slack next with ⟨blocks, added⟩
      obtain ⟨hbytes, hsize⟩ := glueDeferred_spec hg
      refine appends_of_extends hc ?_ ?_
      · rw [← hbytes]
        simpa [hnil] using extends_append [] blocks
      · rw [hsize, hnil, blockSize_nil]
        omega
  · next prev hprev =>
      split
      · rcases hf : prev.fill s with ⟨prev', rest⟩
        obtain ⟨t, rfl, hext, hlsize⟩ := extends_fill hprev hf
        simp only
        split
        · next hnil =>
            rw [hnil, List.append_nil]
            refine appends_of_extends hc (hext.trans (extends_append _ next)) ?_
            rw [blockSize_append, hlsize]
            omega
        · rcases hg : glueDeferred rest slack next with ⟨blocks, added⟩
          obtain ⟨hbytes, hsize⟩ := glueDeferred_spec hg
          refine appends_of_extends hc ?_ ?_
          · rw [List.append_assoc t, ← hbytes]
            exact hext.trans (extends_append _ blocks)
          · rw [blockSize_append, hlsize, hsize]
            omega
      · rcases hg : glueDeferred s slack next with ⟨blocks, added⟩
        obtain ⟨hbytes, hsize⟩ := glueDeferred_spec hg
        refine appends_of_extends hc ?_ ?_
        · rw [← hbytes]
          exact extends_append c.reply blocks
        · rw [blockSize_append, hsize]
          omega

theorem addReplyDeferred_appends {c : Client} (hc : ClientOk c) (s : List Byte)
    (body : List ReplyBlock) (trimSlack slack : Nat) :
    Appends c (addReplyDeferred c s body trimSlack slack)
      (if prepareClientToWrite c then s ++ blockBytes body else []) := by
  unfold addReplyDeferred
  split
  · have htrim := trimReplyUnusedTailSpace_appends hc trimSlack
    have hset := setDeferredReply_appends htrim.ok s slack body
    exact htrim.trans hset
  · exact Appends.refl hc

theorem joinReplyBlocks_appends {c : Client} (hc : ClientOk c) (blocks : List ReplyBlock) :
    Appends c (joinReplyBlocks c blocks) (blockBytes blocks) := by
  refine appends_of_extends hc (extends_append c.reply blocks) ?_
  rw [blockSize_append]
  simp only [blockSize]
  omega

theorem addReplyFromClient_appends {c : Client} (hc : ClientOk c) (buf : List Byte)
    (blocks : List ReplyBlock) (slack : Nat) :
    Appends c (addReplyFromClient c buf blocks slack)
      (queued c buf ++ queued (addReplyProto c buf slack) (blockBytes blocks)) := by
  have hbuf := addReplyProto_appends hc buf slack
  refine hbuf.trans ?_
  unfold addReplyFromClient queued
  simp only
  split
  · exact joinReplyBlocks_appends hbuf.ok blocks
  · exact Appends.refl hbuf.ok

end WasiPorts.Redis.Reply
