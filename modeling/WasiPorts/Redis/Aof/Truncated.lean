import WasiPorts.Redis.Aof.Contents

/-!
# Files that are cut

A last file that ends in the middle of a command or of a transaction is cut at `valid_up_to` or at
`valid_before_multi`. What is left of it loads to the dataset that the server has loaded, unless the cut
is inside `MULTI` or takes an RDB preamble away (`CutsClean`). A file that ends inside an annotation is
only cut inside `MULTI` (`CutsTorn`).

* `readAof_cutsClean` — for one file.
* `loadAppendOnlyFiles_cutsClean` — for all files of the manifest.
-/

namespace WasiPorts.Redis.Aof

open WasiPorts.Posix WasiPorts.Posix.Fs

variable {D A δ : Type}

/-! ## Where a file is cut -/

def Rec.isMulti : Rec A δ → Bool
  | .multi => true
  | _ => false

/-- The records that do not move `valid_up_to`. -/
def Rec.quiet : Rec A δ → Bool
  | .timestamp | .base _ _ => true
  | _ => false

/-- Whether the client is inside `MULTI` after one more record. -/
def nextInside (inside : Bool) : Rec A δ → Bool
  | .multi => true
  | .exec => false
  | _ => inside

/-- The client is inside `MULTI` after these records. -/
def insideMulti (rs : List (Rec A δ)) : Bool := rs.foldl nextInside false

theorem foldl_nextInside {rs : List (Rec A δ)} (h : ∀ r ∈ rs, r.isMulti = false) :
    rs.foldl nextInside false = false := by
  induction rs with
  | nil => rfl
  | cons r rs ih =>
      have hnext : nextInside false r = false := by
        have hr := h r List.mem_cons_self
        cases r <;> simp_all [Rec.isMulti, nextInside]
      rw [List.foldl_cons, hnext]
      exact ih fun r' hr' => h r' (List.mem_cons_of_mem r hr')

/-- The records before the last `MULTI`. -/
def beforeMulti (rs : List (Rec A δ × Nat)) : List (Rec A δ × Nat) :=
  (rs.rdropWhile fun r => !r.1.isMulti).dropLast

/-- The records up to `valid_up_to`. -/
def upToValid (rs : List (Rec A δ × Nat)) : List (Rec A δ × Nat) := rs.rdropWhile (·.1.quiet)

theorem valid_concat (rs : List (Rec A δ × Nat)) (r : Rec A δ × Nat) :
    valid (rs ++ [r]) = (valid rs).next r := by
  simp [valid]

theorem valid_upTo (rs : List (Rec A δ × Nat)) :
    (valid rs).upTo = ((upToValid rs).getLast?.map (·.2)).getD 0 := by
  unfold upToValid
  induction rs using List.reverseRecOn with
  | nil => rfl
  | append_singleton rs r ih =>
      obtain ⟨r, e⟩ := r
      rw [valid_concat, List.rdropWhile_concat]
      cases r with
      | timestamp => exact ih
      | base d upto => exact ih
      | select db => simp [Valid.next, Rec.quiet]
      | command argv db off => simp [Valid.next, Rec.quiet]
      | multi => simp [Valid.next, Rec.quiet]
      | exec => simp [Valid.next, Rec.quiet]

theorem valid_beforeMulti (rs : List (Rec A δ × Nat)) :
    (valid rs).beforeMulti = (valid (beforeMulti rs)).upTo := by
  unfold beforeMulti
  induction rs using List.reverseRecOn with
  | nil => rfl
  | append_singleton rs r ih =>
      obtain ⟨r, e⟩ := r
      rw [valid_concat, List.rdropWhile_concat]
      cases r with
      | multi => simp [Valid.next, Rec.isMulti]
      | timestamp => exact ih
      | base d upto => exact ih
      | select db => exact ih
      | command argv db off => exact ih
      | exec => exact ih

theorem upToValid_begins (rs : List (Rec A δ × Nat)) : upToValid rs <+: rs := List.rdropWhile_prefix _ _

/-- The last `MULTI`, of records that end inside one. -/
theorem beforeMulti_split {rs : List (Rec A δ × Nat)} (h : insideMulti (rs.map (·.1)) = true) :
    ∃ r suf, rs = beforeMulti rs ++ r :: suf ∧ r.1 = .multi ∧ ∀ r' ∈ suf, r'.1.isMulti = false := by
  have hne : rs.rdropWhile (fun r => !r.1.isMulti) ≠ [] := by
    intro hnil
    have hno : ∀ r ∈ rs.map (·.1), r.isMulti = false := by
      intro r hr
      obtain ⟨r', hr', rfl⟩ := List.mem_map.mp hr
      simpa using List.rdropWhile_eq_nil_iff.mp hnil r' hr'
    rw [insideMulti, foldl_nextInside hno] at h
    cases h
  have hlast := List.rdropWhile_last_not (fun r : Rec A δ × Nat => !r.1.isMulti) rs hne
  refine ⟨(rs.rdropWhile fun r => !r.1.isMulti).getLast hne, rs.rtakeWhile fun r => !r.1.isMulti, ?_, ?_, ?_⟩
  · have hsplit : beforeMulti rs ++ [(rs.rdropWhile fun r => !r.1.isMulti).getLast hne] =
        rs.rdropWhile fun r => !r.1.isMulti := List.dropLast_append_getLast hne
    rw [← List.singleton_append, ← List.append_assoc, hsplit]
    exact List.rdropWhile_append_rtakeWhile.symm
  · generalize (rs.rdropWhile fun r => !r.1.isMulti).getLast hne = r at hlast
    obtain ⟨r, e⟩ := r
    cases r <;> simp [Rec.isMulti] at hlast
    rfl
  · intro r hr
    simpa using List.mem_rtakeWhile_imp hr

/-! ## Replaying what is left -/

section Replay

variable [Commands A δ]

theorem feed_nextInside (st : Replay A δ) (r : Rec A δ) :
    (st.feed r).queue.isSome = nextInside st.queue.isSome r := by
  obtain ⟨db, data, queue⟩ := st
  cases r with
  | multi => cases queue <;> rfl
  | exec =>
      cases queue with
      | none => rfl
      | some q =>
          show (q.foldl Replay.exec ⟨db, data, none⟩).queue.isSome = false
          rw [Replay.foldl_exec_queue]
          rfl
  | timestamp => cases queue <;> rfl
  | select db => cases queue <;> rfl
  | command argv db off => cases queue <;> rfl
  | base d upto => cases queue <;> rfl

theorem foldl_feed_isSome (rs : List (Rec A δ)) (st : Replay A δ) :
    (rs.foldl Replay.feed st).queue.isSome = rs.foldl nextInside st.queue.isSome := by
  induction rs generalizing st with
  | nil => rfl
  | cons r rs ih => rw [List.foldl_cons, List.foldl_cons, ih, feed_nextInside]

theorem replay_isSome (rs : List (Rec A δ)) (d : δ) : (replay rs d).queue.isSome = insideMulti rs :=
  foldl_feed_isSome rs (.new d)

theorem foldl_feed_timestamps {rs : List (Rec A δ)} (h : ∀ r ∈ rs, r = .timestamp) (st : Replay A δ) :
    rs.foldl Replay.feed st = st := by
  induction rs with
  | nil => rfl
  | cons r rs ih =>
      have hst : st.feed r = st := by
        rw [h r List.mem_cons_self]
        obtain ⟨db, data, queue⟩ := st
        cases queue <;> rfl
      rw [List.foldl_cons, hst]
      exact ih fun r' hr' => h r' (List.mem_cons_of_mem r hr')

/-- Annotations behind `valid_up_to` have no effect. -/
theorem replay_upToValid {rs : List (Rec A δ × Nat)} (hquiet : ∀ r ∈ rs.rtakeWhile (·.1.quiet), r.1 = .timestamp)
    (d : δ) : replay (rs.map (·.1)) d = replay ((upToValid rs).map (·.1)) d := by
  have hsplit : rs = upToValid rs ++ rs.rtakeWhile (·.1.quiet) := List.rdropWhile_append_rtakeWhile.symm
  have hts : ∀ r ∈ (rs.rtakeWhile (·.1.quiet)).map (·.1), r = .timestamp := by
    intro r hr
    obtain ⟨r', hr', rfl⟩ := List.mem_map.mp hr
    exact hquiet r' hr'
  unfold replay
  nth_rewrite 1 [hsplit]
  rw [List.map_append, List.foldl_append, foldl_feed_timestamps hts]

/-- In a transaction that is not executed, nothing is. -/
theorem foldl_feed_queued {rs : List (Rec A δ)} {st : Replay A δ} (hmulti : ∀ r ∈ rs, r.isMulti = false)
    (hqueue : st.queue.isSome) (hend : (rs.foldl Replay.feed st).queue.isSome) :
    (rs.foldl Replay.feed st).data = st.data := by
  induction rs generalizing st with
  | nil => rfl
  | cons r rs ih =>
      have hrest : ∀ r' ∈ rs, r'.isMulti = false := fun r' hr' => hmulti r' (List.mem_cons_of_mem r hr')
      obtain ⟨db, data, queue⟩ := st
      obtain ⟨q, rfl⟩ := Option.isSome_iff_exists.mp hqueue
      cases r with
      | exec =>
          -- the queue would stay closed
          rw [List.foldl_cons, foldl_feed_isSome, feed_nextInside, nextInside, foldl_nextInside hrest] at hend
          cases hend
      | multi => exact absurd (hmulti .multi List.mem_cons_self) (by simp [Rec.isMulti])
      | timestamp => exact ih hrest rfl hend
      | select db' => exact @ih ⟨db, data, some (q ++ [.select db'])⟩ hrest rfl hend
      | command argv db' off => exact @ih ⟨db, data, some (q ++ [.command argv db' off])⟩ hrest rfl hend
      | base d' upto => exact @ih ⟨db, data, some (q ++ [.base d' upto])⟩ hrest rfl hend

/-- What follows the last `MULTI` is not executed. -/
theorem replay_beforeMulti {rs : List (Rec A δ × Nat)} (hbefore : insideMulti ((beforeMulti rs).map (·.1)) = false)
    (hmulti : insideMulti (rs.map (·.1)) = true) (d : δ) :
    (replay (rs.map (·.1)) d).data = (replay ((beforeMulti rs).map (·.1)) d).data := by
  obtain ⟨r, suf, hsplit, hr, hsuf⟩ := beforeMulti_split hmulti
  have hrecs : rs.map (·.1) = (beforeMulti rs).map (·.1) ++ .multi :: suf.map (·.1) := by
    nth_rewrite 1 [hsplit]
    rw [List.map_append, List.map_cons, hr]
  have hno : ∀ r ∈ suf.map (·.1), r.isMulti = false := by
    intro r hr
    obtain ⟨r', hr', rfl⟩ := List.mem_map.mp hr
    exact hsuf r' hr'
  rw [← replay_isSome _ d] at hbefore hmulti
  rw [hrecs] at hmulti ⊢
  unfold replay at hbefore hmulti ⊢
  rw [List.foldl_append, List.foldl_cons] at hmulti ⊢
  generalize ((beforeMulti rs).map (·.1)).foldl Replay.feed (.new d) = st at *
  obtain ⟨db, data, queue⟩ := st
  cases queue with
  | some q => cases hbefore
  | none => exact foldl_feed_queued hno rfl hmulti

end Replay

/-! ## Cutting one file -/

section File

variable [Commands A δ] [AofFormat D A δ]

/-- The cut after these records is outside of `MULTI`, and only annotations lie behind it. -/
def EndsClean (rs : List (Rec A δ × Nat)) : Prop :=
  insideMulti (rs.map (·.1)) = false ∧ ∀ r ∈ rs.rtakeWhile (·.1.quiet), r.1 = .timestamp

/-- If the file has to be cut, the cut is outside of `MULTI` and keeps the RDB preamble. -/
def CutsClean (xs : List D) : Prop :=
  match (AofFormat.parse xs).2 with
  | .bad => True
  | .short => EndsClean (AofFormat.parse xs).1
  | .eof | .torn => insideMulti (recs xs) = true → EndsClean (beforeMulti (AofFormat.parse xs).1)

/-- If the file ends inside an annotation, the end is cut off with the transaction around it. -/
def CutsTorn (xs : List D) : Prop := (AofFormat.parse xs).2 = .torn → insideMulti (recs xs) = true

/-- A file that can be loaded is not cut. -/
theorem CutsClean.of_loadContents {xs : List D} {d d' : δ} (h : loadContents [xs] d = some d') : CutsClean xs := by
  obtain ⟨hwhole, hqueue, -⟩ := loadContents_singleton.mp h
  have hmulti := replay_isSome (recs xs) d
  unfold CutsClean
  rcases hwhole with heof | htorn
  · rw [heof, ← hmulti, hqueue]
    exact nofun
  · rw [htorn, ← hmulti, hqueue]
    exact nofun

/-- A file that is loaded without a cut is in one piece. -/
theorem CutsTorn.eof {xs : List D} {d d' : δ} (h : CutsTorn xs) (hload : loadContents [xs] d = some d') :
    (AofFormat.parse xs).2 = .eof := by
  obtain ⟨hwhole, hqueue, -⟩ := loadContents_singleton.mp hload
  refine hwhole.resolve_right fun htorn => ?_
  have hmulti := replay_isSome (recs xs) d
  rw [h htorn, hqueue] at hmulti
  cases hmulti

omit [Commands A δ] in
/-- The cut leaves the records up to `valid_up_to`. -/
theorem parse_cut {xs : List D} {rs : List (Rec A δ × Nat)} (h : rs <+: (AofFormat.parse xs).1) :
    AofFormat.parse (xs.take (valid rs).upTo) = (upToValid rs, .eof) := by
  obtain ⟨suf, hsuf⟩ := (upToValid_begins rs).trans h
  rw [valid_upTo]
  rcases List.eq_nil_or_concat (upToValid rs) with hnil | ⟨init, ⟨r, e⟩, heq⟩
  · rw [hnil]
    exact AofFormat.parse_nil
  · rw [List.concat_eq_append] at heq
    rw [heq, List.append_assoc] at hsuf
    have htake := AofFormat.parse_take xs init r e suf hsuf.symm
    simpa [heq] using htake

/-- Loading what is left. -/
theorem loadContents_cut {xs : List D} {rs : List (Rec A δ × Nat)} (h : rs <+: (AofFormat.parse xs).1)
    (hclean : EndsClean rs) (d : δ) :
    loadContents [xs.take (valid rs).upTo] d = some (replay (rs.map (·.1)) d).data := by
  obtain ⟨hmulti, hquiet⟩ := hclean
  have hparse := parse_cut h
  have hrecs : recs (xs.take (valid rs).upTo) = (upToValid rs).map (·.1) := by
    rw [recs, hparse]
  have hsame := replay_upToValid hquiet d
  refine loadContents_singleton.mpr ⟨.inl (by rw [hparse]), ?_, ?_⟩
  · have hqueue := replay_isSome (rs.map (·.1)) d
    rw [hmulti, hsame, Option.isSome_eq_false_iff, Option.isNone_iff_eq_none] at hqueue
    rw [hrecs]
    exact hqueue
  · rw [hrecs, ← hsame]

/-- A file that is cut ends in the middle of a command or of a transaction. -/
theorem readAof_truncated {lt : Bool} {xs : List D} {d : δ} (h : (readAof lt xs d).1 = .truncated) :
    ((AofFormat.parse xs).2 = .short ∧
      readAof lt xs d = (.truncated, (replay (recs xs) d).data, some (valid (AofFormat.parse xs).1).upTo)) ∨
    (EndsWhole xs ∧ insideMulti (recs xs) = true ∧
      readAof lt xs d =
        (.truncated, (replay (recs xs) d).data, some (valid (AofFormat.parse xs).1).beforeMulti)) := by
  have hend : ∀ cut (d : δ), (unexpectedEof lt cut d).1 = .truncated →
      unexpectedEof lt cut d = (.truncated, d, some cut) := by
    intro cut d h
    cases lt with
    | true => rfl
    | false => cases h
  -- the end of the file is unexpected only while commands are queued
  have hopen : ∀ cut (st : Replay A δ), (endOfFile lt cut st).1 = .truncated →
      st.queue.isSome = true ∧ endOfFile lt cut st = (.truncated, st.data, some cut) := by
    intro cut st h
    unfold endOfFile at h ⊢
    split at h
    · cases h
    · next hqueue =>
        rw [if_neg hqueue]
        exact ⟨Option.isSome_iff_ne_none.mpr hqueue, hend _ _ h⟩
  have hmulti : (replay (recs xs) d).queue.isSome = true → insideMulti (recs xs) = true := by
    rw [replay_isSome]
    exact id
  unfold readAof at h ⊢
  dsimp only at h ⊢
  split at h
  · cases h
  · next hne =>
      rw [if_neg hne]
      cases hparse : (AofFormat.parse xs).2 with
      | bad =>
          rw [hparse] at h
          cases h
      | short =>
          rw [hparse] at h
          exact .inl ⟨rfl, hend _ _ h⟩
      | eof =>
          rw [hparse] at h
          obtain ⟨hqueue, hcut⟩ := hopen _ _ h
          exact .inr ⟨.inl hparse, hmulti hqueue, hcut⟩
      | torn =>
          rw [hparse] at h
          obtain ⟨hqueue, hcut⟩ := hopen _ _ h
          exact .inr ⟨.inr hparse, hmulti hqueue, hcut⟩

/-- What is left of a file that is cut loads to the dataset that was loaded. -/
theorem readAof_cutsClean {lt : Bool} {xs : List D} {d : δ} (hclean : CutsClean xs)
    (h : (readAof lt xs d).1 = .truncated) :
    ∃ n, (readAof lt xs d).2.2 = some n ∧ n ≤ xs.length ∧
      loadContents [xs.take n] d = some (readAof lt xs d).2.1 ∧ (AofFormat.parse (xs.take n)).2 = .eof := by
  unfold CutsClean at hclean
  rcases readAof_truncated h with ⟨hshort, heq⟩ | ⟨hwhole, hmulti, heq⟩
  · rw [hshort] at hclean
    rw [heq]
    have hparse : AofFormat.parse (xs.take (valid (AofFormat.parse xs).1).upTo) = _ :=
      parse_cut (List.prefix_refl (AofFormat.parse xs).1)
    refine ⟨_, rfl, ?_, loadContents_cut (List.prefix_refl _) hclean d, by rw [hparse]⟩
    -- the whole file is not complete
    by_contra hlt
    rw [List.take_of_length_le (by omega), Prod.ext_iff, hshort] at hparse
    cases hparse.2
  · have hends : EndsClean (beforeMulti (AofFormat.parse xs).1) := by
      rcases hwhole with heof | htorn
      · rw [heof] at hclean
        exact hclean hmulti
      · rw [htorn] at hclean
        exact hclean hmulti
    obtain ⟨r, suf, hsplit, -⟩ := beforeMulti_split hmulti
    have hpre : beforeMulti (AofFormat.parse xs).1 <+: (AofFormat.parse xs).1 := by
      nth_rewrite 2 [hsplit]
      exact List.prefix_append _ _
    have hload := loadContents_cut hpre hends d
    have hparse := parse_cut hpre
    rw [← valid_beforeMulti] at hload hparse
    rw [heq]
    refine ⟨_, rfl, ?_, ?_, by rw [hparse]⟩
    · -- the whole file has more records
      by_contra hlt
      rw [List.take_of_length_le (by omega)] at hparse
      have hle := (upToValid_begins (beforeMulti (AofFormat.parse xs).1)).length_le
      have hlen := congrArg List.length hsplit
      have hsame := congrArg (fun r => r.1.length) hparse
      simp only [List.length_append, List.length_cons] at hlen hsame
      omega
    · rw [hload]
      exact congrArg some (replay_beforeMulti hends.1 hmulti d).symm

end File

/-! ## Cutting the last file -/

section Files

variable [Commands A δ] [AofFormat D A δ] {lt : Bool} {d : δ} {dk : Disk D}

/-- A load of the files called `names`, on the dataset `d`, that leaves the files as they are or cuts one
of them. -/
structure LoadsTo (names : List String) (d : δ) (dk : Disk D) (res : LoadStatus × δ × Disk D) : Prop where
  /-- The files load again to the dataset that was loaded. -/
  loads : ∃ xss, HaveContents res.2.2 names xss ∧ loadContents xss d = some res.2.1
  /-- The last file is in one piece afterwards, if its end is cut off when it is torn. -/
  eof : ∀ n ∈ names.getLast?, (∀ xs ∈ dk.fs.data (.aof n), CutsTorn xs) →
    ∀ xs ∈ res.2.2.fs.data (.aof n), (AofFormat.parse xs).2 = .eof
  other : ∀ n ∉ names, res.2.2.fs.data (.aof n) = dk.fs.data (.aof n)
  manifest : res.2.2.manifest = dk.manifest
  aofDir : res.2.2.aofDir = dk.aofDir

/-- The only file, if it is cut. -/
theorem LoadsTo.cut {n : String} {xs : List D} {d' : δ} {k : Nat} (hdata : dk.fs.data (.aof n) = some xs)
    (hk : k ≤ xs.length) (h : loadContents [xs.take k] d = some d')
    (heof : (AofFormat.parse (xs.take k)).2 = .eof) :
    LoadsTo [n] d dk (.truncated, d', dk.cut n (some k)) where
  loads := by
    refine ⟨[xs.take k], ?_, h⟩
    simp only [HaveContents, List.map_singleton, Disk.cut, truncate_data_self hdata hk]
  eof := by
    rintro m hm - ys hys
    obtain rfl : n = m := by simpa using hm
    simp only [Disk.cut, truncate_data_self hdata hk, Option.mem_some_iff] at hys
    rw [← hys]
    exact heof
  other m hm := by
    have hne : Path.aof m ≠ .aof n := fun heq => hm (by simp [Path.aof.inj heq])
    exact truncate_data_ne k hne
  manifest := rfl
  aofDir := rfl

/-- A file that is not cut, and the rest. -/
theorem LoadsTo.cons {n : String} {names : List String} {xs : List D} {d₁ : δ}
    {res : LoadStatus × δ × Disk D} (h : LoadsTo names d₁ dk res) (hdata : dk.fs.data (.aof n) = some xs)
    (hload : loadContents [xs] d = some d₁) (hn : n ∉ names) : LoadsTo (n :: names) d dk res where
  loads := by
    obtain ⟨xss, hhave, hrest⟩ := h.loads
    refine ⟨xs :: xss, ?_, ?_⟩
    · unfold HaveContents at hhave ⊢
      rw [List.map_cons, List.map_cons, hhave, h.other n hn, hdata]
    · rw [loadContents_cons, hload]
      exact hrest
  eof := by
    intro m hm hcuts ys hys
    cases names with
    | nil =>
        -- the file is the last one
        obtain rfl : n = m := by simpa using hm
        rw [h.other n hn, hdata] at hys
        obtain rfl := Option.mem_some_iff.mp hys
        exact (hcuts xs hdata).eof hload
    | cons _ _ => exact h.eof m hm hcuts ys hys
  other m hm := h.other m fun hmem => hm (List.mem_cons_of_mem n hmem)
  manifest := h.manifest
  aofDir := h.aofDir

theorem LoadsTo.nil (d : δ) (dk : Disk D) (st : LoadStatus) : LoadsTo [] d dk (st, d, dk) :=
  ⟨⟨[], rfl, rfl⟩, nofun, fun _ _ => rfl, rfl, rfl⟩

theorem loadFiles_cutsClean {names : List String} (hexist : ∀ n ∈ names, (dk.fs.data (.aof n)).isSome)
    (hnodup : names.Nodup)
    (hclean : ∀ n ∈ names.getLast?, ∀ xs ∈ dk.fs.data (.aof n), CutsClean xs)
    (hfail : (loadFiles lt names d dk).1 ≠ .failed) : LoadsTo names d dk (loadFiles lt names d dk) := by
  induction names generalizing d with
  | nil => exact .nil d dk .ok
  | cons n names ih =>
      obtain ⟨hn, hnodup'⟩ := List.nodup_cons.mp hnodup
      obtain ⟨xs, hdata⟩ := Option.isSome_iff_exists.mp (hexist n List.mem_cons_self)
      -- only the last file may be cut
      have hclean' : ∀ m ∈ names.getLast?, ∀ xs ∈ dk.fs.data (.aof m), CutsClean xs := by
        intro m hm
        refine hclean m ?_
        cases names with
        | nil => cases hm
        | cons _ _ => exact hm
      have hrest := fun d hfail => ih (d := d) (fun m hm => hexist m (List.mem_cons_of_mem n hm)) hnodup' hclean' hfail
      have hsingle : loadSingleAppendOnlyFile lt n d dk =
          ((readAof lt xs d).1, (readAof lt xs d).2.1, dk.cut n (readAof lt xs d).2.2) := by
        unfold loadSingleAppendOnlyFile
        rw [hdata]
      have hone := @loadContents_of_readAof _ _ _ _ _ lt xs d
      have hnocut := @readAof_cut _ _ _ _ _ lt xs d
      have hcut := @readAof_cutsClean _ _ _ _ _ lt xs d
      unfold loadFiles at hfail ⊢
      rw [hsingle] at hfail ⊢
      generalize readAof lt xs d = r at *
      obtain ⟨st, d₁, cut⟩ := r
      cases st with
      | failed => exact absurd rfl hfail
      | truncated =>
          dsimp only at hfail ⊢
          split at hfail
          · next hnil =>
              subst hnil
              obtain ⟨k, rfl, hk, hload, heof⟩ := hcut (hclean n rfl xs hdata) rfl
              exact .cut hdata hk hload heof
          · exact absurd rfl hfail
      | ok =>
          obtain rfl : cut = none := hnocut (by simp)
          exact (hrest d₁ hfail).cons hdata (hone (by simp) (by simp)) hn
      | notExist =>
          obtain rfl : cut = none := hnocut (by simp)
          exact (hrest d₁ hfail).cons hdata (hone (by simp) (by simp)) hn
      | empty =>
          obtain rfl : cut = none := hnocut (by simp)
          exact (hrest d₁ hfail).cons hdata (hone (by simp) (by simp)) hn

/-- The files of the manifest load again to the dataset that was loaded. -/
theorem loadAppendOnlyFiles_cutsClean {am : AofManifest String} (hnodup : am.loadNames.Nodup)
    (hclean : ∀ n ∈ am.loadNames.getLast?, ∀ xs ∈ dk.fs.data (.aof n), CutsClean xs)
    (hfail : (loadAppendOnlyFiles (A := A) (δ := δ) lt am dk).1 ≠ .failed) :
    LoadsTo am.loadNames (Commands.empty A) dk (loadAppendOnlyFiles (A := A) (δ := δ) lt am dk) := by
  unfold loadAppendOnlyFiles at hfail ⊢
  split
  · next hnil =>
      rw [hnil]
      exact .nil _ dk .notExist
  · next hne =>
      rw [if_neg hne] at hfail
      split
      · next hany =>
          rw [if_pos hany] at hfail
          exact absurd rfl hfail
      · next hany =>
          rw [if_neg hany] at hfail
          have hexist : ∀ n ∈ am.loadNames, (dk.fs.data (.aof n)).isSome := by
            simpa [List.any_eq_true, Option.isSome_iff_ne_none] using hany
          split
          · next hsize =>
              have hhave := haveContents_of_exist hexist
              have hnil := (loadSize_eq_zero hhave).mp hsize
              have hempty := loadContents_all_empty hnil (Commands.empty A)
              refine ⟨⟨_, hhave, hempty⟩, ?_, fun _ _ => rfl, rfl, rfl⟩
              intro n hn hcuts xs hxs
              obtain ⟨d₁, hlast⟩ := hhave.last hn hxs hempty
              exact (hcuts xs hxs).eof hlast
          · next hsize =>
              rw [if_neg hsize] at hfail
              exact loadFiles_cutsClean hexist hnodup hclean hfail

end Files

end WasiPorts.Redis.Aof
