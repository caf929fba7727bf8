import WasiPorts.Redis.Aof.LogSteps

/-!
# Loading contents and feeding them

`loadContents` is what `loadAppendOnlyFiles` makes of the contents of its files, when no file is cut.
While the server runs, `aof_buf` goes on after the last file: `Streams` says what a client that replays
both would come to. Inside `MULTI` this is seen as if `EXEC` came next (`Replay.settled`), so that every
record has its effect at once.

* `loadContents_loadAppendOnlyFiles` — contents that can be loaded are loaded from the files.
* `Streams.propagate` — what `propagatePendingCommands` feeds has the effect of its commands.
-/

namespace WasiPorts.Redis.Aof

open WasiPorts.Posix WasiPorts.Posix.Fs

variable {D A δ : Type} [Commands A δ]

/-! ## A replay, as if `EXEC` came next -/

namespace Replay

/-- The client with its queue executed. -/
def settled (st : Replay A δ) : Replay A δ :=
  match st.queue with
  | none => st
  | some q => q.foldl exec { st with queue := none }

theorem settled_of_queue {st : Replay A δ} (h : st.queue = none) : st.settled = st := by
  simp [settled, h]

theorem settled_feed (st : Replay A δ) (r : Rec A δ) : (st.feed r).settled = st.settled.exec r := by
  obtain ⟨db, data, queue⟩ := st
  cases queue with
  | none => cases r <;> rfl
  | some q =>
      cases r with
      | timestamp => rfl
      | exec =>
          show settled (q.foldl exec ⟨db, data, none⟩) = _
          rw [settled_of_queue (foldl_exec_queue q _)]
          rfl
      | multi => simp [feed, settled]
      | select db' => simp [feed, settled]
      | command argv db' off => simp [feed, settled]
      | base d upto => simp [feed, settled]

/-- Only `MULTI` and `EXEC` begin and end a queue. -/
theorem feed_isSome {st : Replay A δ} {r : Rec A δ} (hmulti : r ≠ .multi) (hexec : r ≠ .exec) :
    (st.feed r).queue.isSome = st.queue.isSome := by
  obtain ⟨db, data, queue⟩ := st
  cases queue <;> cases r <;> simp_all [feed, Replay.exec]

end Replay

/-! ## Loading contents -/

section Load

variable [AofFormat D A δ]

/-- The dataset after loading files with these contents; there is none if a file would have to be
cut. -/
def loadContents : List (List D) → δ → Option δ
  | [], d => some d
  | xs :: rest, d =>
    match readAof false xs d with
    | (.ok, d, _) => loadContents rest d
    | (.empty, d, _) => loadContents rest d
    | _ => none

/-- A file that can be loaded: one without part of a command, outside of `MULTI`. -/
theorem loadContents_singleton {xs : List D} {d d' : δ} :
    loadContents [xs] d = some d' ↔
      EndsWhole xs ∧ (replay (recs xs) d).queue = none ∧ (replay (recs xs) d).data = d' := by
  unfold EndsWhole
  by_cases hnil : xs = []
  · subst hnil
    simp [loadContents, readAof, recs_nil, AofFormat.parse_nil, replay, Replay.new]
  · have hrs : (AofFormat.parse xs).1.map (·.1) = recs xs := rfl
    rw [loadContents, readAof, if_neg hnil]
    dsimp only
    rw [hrs]
    have hend : (match endOfFile false (valid (AofFormat.parse xs).1).beforeMulti (replay (recs xs) d) with
          | (.ok, d, _) => some d
          | (.empty, d, _) => some d
          | _ => none) = some d' ↔
        (replay (recs xs) d).queue = none ∧ (replay (recs xs) d).data = d' := by
      unfold endOfFile
      by_cases hqueue : (replay (recs xs) d).queue = none <;> simp [hqueue, unexpectedEof]
    cases (AofFormat.parse xs).2 with
    | bad => simp
    | short => simp [unexpectedEof]
    | eof => simpa [loadContents] using hend
    | torn => simpa [loadContents] using hend

theorem loadContents_append (xss yss : List (List D)) (d : δ) :
    loadContents (xss ++ yss) d = (loadContents xss d).bind (loadContents yss) := by
  induction xss generalizing d with
  | nil => rfl
  | cons xs xss ih =>
      simp only [List.cons_append, loadContents]
      split
      · exact ih _
      · exact ih _
      · rfl

/-- Contents that can be loaded are loaded without a cut. -/
theorem readAof_of_loadContents {xs : List D} {d d' : δ} (lt : Bool) (h : loadContents [xs] d = some d') :
    readAof lt xs d = (.ok, d', none) ∨ readAof lt xs d = (.empty, d', none) := by
  obtain ⟨hwhole, hqueue, hdata⟩ := loadContents_singleton.mp h
  unfold readAof
  by_cases hnil : xs = []
  · subst hnil
    right
    rw [recs_nil] at hdata
    simpa [replay, Replay.new] using hdata
  · left
    rw [if_neg hnil]
    dsimp only
    have hend : endOfFile lt (valid (AofFormat.parse xs).1).beforeMulti
        (replay ((AofFormat.parse xs).1.map (·.1)) d) = (.ok, d', none) := by
      have hqueue' : (replay ((AofFormat.parse xs).1.map (·.1)) d).queue = none := hqueue
      unfold endOfFile
      rw [if_pos hqueue']
      exact Prod.ext rfl (Prod.ext hdata rfl)
    rcases hwhole with heof | htorn
    · rw [heof]
      exact hend
    · rw [htorn]
      exact hend

/-- What is loaded without a cut are contents that can be loaded. -/
theorem loadContents_of_readAof {lt : Bool} {xs : List D} {d : δ} (hfail : (readAof lt xs d).1 ≠ .failed)
    (hcut : (readAof lt xs d).1 ≠ .truncated) : loadContents [xs] d = some (readAof lt xs d).2.1 := by
  have hend : ∀ cut (d : δ), (unexpectedEof lt cut d).1 = .failed ∨ (unexpectedEof lt cut d).1 = .truncated := by
    intro cut d
    cases lt with
    | true => exact .inr rfl
    | false => exact .inl rfl
  have hnot : ∀ cut (d : δ), (unexpectedEof lt cut d).1 ≠ .failed → (unexpectedEof lt cut d).1 ≠ .truncated →
      False := fun cut d h h' => (hend cut d).elim h h'
  have hread : ∀ cut (st : Replay A δ), (endOfFile lt cut st).1 ≠ .failed →
      (endOfFile lt cut st).1 ≠ .truncated →
      st.queue = none ∧ st.data = (endOfFile lt cut st).2.1 := by
    intro cut st hfail hcut
    unfold endOfFile at hfail hcut ⊢
    by_cases hqueue : st.queue = none
    · rw [if_pos hqueue]
      exact ⟨hqueue, rfl⟩
    · rw [if_neg hqueue] at hfail hcut
      exact (hnot _ _ hfail hcut).elim
  refine loadContents_singleton.mpr ?_
  unfold readAof at hfail hcut ⊢
  dsimp only at hfail hcut ⊢
  split
  · next hnil =>
      subst hnil
      simp [EndsWhole, recs_nil, AofFormat.parse_nil, replay, Replay.new]
  · next hne =>
      rw [if_neg hne] at hfail hcut
      cases hparse : (AofFormat.parse xs).2 with
      | bad =>
          rw [hparse] at hfail
          exact absurd rfl hfail
      | short =>
          rw [hparse] at hfail hcut
          exact (hnot _ _ hfail hcut).elim
      | eof =>
          rw [hparse] at hfail hcut
          exact ⟨.inl hparse, hread _ _ hfail hcut⟩
      | torn =>
          rw [hparse] at hfail hcut
          exact ⟨.inr hparse, hread _ _ hfail hcut⟩

theorem loadContents_cons (xs : List D) (xss : List (List D)) (d : δ) :
    loadContents (xs :: xss) d = (loadContents [xs] d).bind (loadContents xss) :=
  loadContents_append [xs] xss d

/-- The contents of the files with these names. -/
def HaveContents (dk : Disk D) (names : List String) (xss : List (List D)) : Prop :=
  names.map (fun n => dk.fs.data (.aof n)) = xss.map some

theorem loadFiles_of_loadContents {names : List String} {xss : List (List D)} {d d' : δ} {dk : Disk D} (lt : Bool)
    (hfiles : HaveContents dk names xss) (h : loadContents xss d = some d') :
    loadFiles lt names d dk = (.ok, d', dk) := by
  induction names generalizing xss d with
  | nil =>
      obtain rfl : xss = [] := by simpa [HaveContents] using hfiles.symm
      obtain rfl := Option.some.inj h
      rfl
  | cons n names ih =>
      cases xss with
      | nil => simp [HaveContents] at hfiles
      | cons xs xss =>
          obtain ⟨hdata, hrest⟩ : dk.fs.data (.aof n) = some xs ∧ HaveContents dk names xss := by
            simpa [HaveContents] using hfiles
          rw [loadContents_cons, Option.bind_eq_some_iff] at h
          obtain ⟨d₁, hone, htail⟩ := h
          have hsingle : loadSingleAppendOnlyFile lt n d dk = (.ok, d₁, dk) ∨
              loadSingleAppendOnlyFile lt n d dk = (.empty, d₁, dk) := by
            unfold loadSingleAppendOnlyFile
            rw [hdata]
            dsimp only
            rcases readAof_of_loadContents lt hone with hread | hread
            · rw [hread]
              exact .inl rfl
            · rw [hread]
              exact .inr rfl
          unfold loadFiles
          rcases hsingle with heq | heq
          · rw [heq]
            exact ih hrest htail
          · rw [heq]
            exact ih hrest htail

omit [Commands A δ] [AofFormat D A δ] in
theorem HaveContents.unique {dk : Disk D} {names : List String} {xss yss : List (List D)}
    (h : HaveContents dk names xss) (h' : HaveContents dk names yss) : xss = yss :=
  List.map_injective_iff.mpr (Option.some_injective _) (h.symm.trans h')

omit [Commands A δ] [AofFormat D A δ] in
theorem HaveContents.congr {dk dk' : Disk D} {names : List String} {xss : List (List D)}
    (h : HaveContents dk names xss) (hdata : ∀ n ∈ names, dk'.fs.data (.aof n) = dk.fs.data (.aof n)) :
    HaveContents dk' names xss :=
  (List.map_congr_left hdata).trans h

omit [Commands A δ] [AofFormat D A δ] in
/-- Files that exist have contents. -/
theorem haveContents_of_exist {dk : Disk D} {names : List String}
    (h : ∀ n ∈ names, (dk.fs.data (.aof n)).isSome) :
    HaveContents dk names (names.map fun n => (dk.fs.data (.aof n)).getD []) := by
  unfold HaveContents
  rw [List.map_map]
  refine List.map_congr_left fun n hn => ?_
  obtain ⟨xs, hxs⟩ := Option.isSome_iff_exists.mp (h n hn)
  simp [hxs]

omit [Commands A δ] [AofFormat D A δ] in
theorem HaveContents.exist {dk : Disk D} {names : List String} {xss : List (List D)}
    (h : HaveContents dk names xss) : ∀ n ∈ names, (dk.fs.data (.aof n)).isSome := by
  intro n hn
  have hmem : dk.fs.data (.aof n) ∈ xss.map some := h ▸ List.mem_map_of_mem hn
  obtain ⟨xs, -, hxs⟩ := List.mem_map.mp hmem
  rw [← hxs]
  rfl

/-- The last file is loaded after the others. -/
theorem HaveContents.last {dk : Disk D} {names : List String} {xss : List (List D)} {n : String} {xs : List D}
    {d d' : δ} (h : HaveContents dk names xss) (hn : n ∈ names.getLast?) (hxs : xs ∈ dk.fs.data (.aof n))
    (hload : loadContents xss d = some d') : ∃ d₁, loadContents [xs] d₁ = some d' := by
  have hlast : xss.getLast? = some xs := by
    have hmap := congrArg List.getLast? h
    rw [List.getLast?_map, List.getLast?_map, Option.mem_def.mp hn, Option.map_some, Option.mem_def.mp hxs] at hmap
    simpa using hmap.symm
  obtain ⟨init, rfl⟩ := List.getLast?_eq_some_iff.mp hlast
  rw [loadContents_append, Option.bind_eq_some_iff] at hload
  obtain ⟨d₁, -, hone⟩ := hload
  exact ⟨d₁, hone⟩

omit [Commands A δ] [AofFormat D A δ] in
/-- `getBaseAndIncrAppendOnlyFilesSize` is 0 if all files are empty. -/
theorem loadSize_eq_zero {dk : Disk D} {names : List String} {xss : List (List D)}
    (h : HaveContents dk names xss) : loadSize names dk = 0 ↔ ∀ xs ∈ xss, xs = [] := by
  have hlen : loadSize names dk = (xss.map List.length).sum := by
    have hmap : names.map (fun n => ((dk.fs.data (.aof n)).getD []).length) =
        (names.map fun n => dk.fs.data (.aof n)).map fun o => (o.getD []).length := by
      rw [List.map_map]
      rfl
    unfold loadSize
    rw [hmap, h, List.map_map]
    rfl
  rw [hlen, List.sum_eq_zero_iff]
  simp

theorem loadContents_all_empty {xss : List (List D)} (h : ∀ xs ∈ xss, xs = []) (d : δ) :
    loadContents xss d = some d := by
  induction xss with
  | nil => rfl
  | cons xs xss ih =>
      rw [h xs List.mem_cons_self, loadContents]
      simpa [readAof] using ih fun ys hys => h ys (List.mem_cons_of_mem xs hys)

/-- Contents that can be loaded. -/
theorem loadContents_loadAppendOnlyFiles {am : AofManifest String} {dk : Disk D} {xss : List (List D)} {d : δ}
    (lt : Bool) (hfiles : HaveContents dk am.loadNames xss)
    (h : loadContents xss (Commands.empty A) = some d) :
    (loadAppendOnlyFiles (A := A) (δ := δ) lt am dk).1 ≠ .failed ∧
      (loadAppendOnlyFiles (A := A) (δ := δ) lt am dk).1 ≠ .truncated := by
  have hany : ¬ (am.loadNames.any fun n => (dk.fs.data (.aof n)).isNone) = true := by
    simpa [List.any_eq_true, Option.isSome_iff_ne_none] using hfiles.exist
  unfold loadAppendOnlyFiles
  rw [if_neg hany, loadFiles_of_loadContents lt hfiles h]
  split
  · exact ⟨nofun, nofun⟩
  · split <;> exact ⟨nofun, nofun⟩

end Load

/-! ## Feeding -/

section Feeding

variable [AofFormat D A δ] {w w' : World D A δ} {xs : List D} {d data data' : δ} {multi multi' : Bool}

/-- A client that replays `xs`, which can be continued, and then `aof_buf`, on the dataset `d`, comes
to `data`, is inside `MULTI` or not, and ends on the database of `aof_selected_db`, if there is one. -/
def Streams (w : World D A δ) (xs : List D) (d : δ) (multi : Bool) (data : δ) : Prop :=
  (AofFormat.parse xs).2 = .eof ∧ ∃ rs, Fed rs ∧ w.sv.aofBuf = rs.flatMap AofFormat.enc ∧
    (replay (recs xs ++ rs) d).queue.isSome = multi ∧ (replay (recs xs ++ rs) d).settled.data = data ∧
    (w.sv.aofSelectedDb = none ∨ w.sv.aofSelectedDb = some (replay (recs xs ++ rs) d).settled.db)

theorem Streams.of_eq (h : Streams w xs d multi data) (hbuf : w'.sv.aofBuf = w.sv.aofBuf)
    (hsel : w'.sv.aofSelectedDb = none ∨ w'.sv.aofSelectedDb = w.sv.aofSelectedDb) :
    Streams w' xs d multi data := by
  obtain ⟨heof, rs, hfed, hrs, hqueue, hdata, hdb⟩ := h
  refine ⟨heof, rs, hfed, hbuf.trans hrs, hqueue, hdata, ?_⟩
  rcases hsel with hnone | hsame
  · exact .inl hnone
  · rw [hsame]
    exact hdb

/-- What is in the file and in `aof_buf` can be loaded. -/
theorem Streams.loads (h : Streams w xs d false data) :
    loadContents [xs ++ w.sv.aofBuf] d = some data := by
  obtain ⟨hxs, rs, hfed, hrs, hmulti, hdata, -⟩ := h
  obtain ⟨heof, hrecs⟩ := parse_append_recs hxs hfed
  have hqueue : (replay (recs xs ++ rs) d).queue = none := by simpa using hmulti
  rw [Replay.settled_of_queue hqueue] at hdata
  rw [hrs]
  refine loadContents_singleton.mpr ⟨.inl heof, ?_, ?_⟩
  · rw [hrecs]
    exact hqueue
  · rw [hrecs]
    exact hdata

/-- The buffer has moved to the file. -/
theorem Streams.flushed (h : Streams w xs d multi data) (hbuf : w'.sv.aofBuf = [])
    (hsel : w'.sv.aofSelectedDb = w.sv.aofSelectedDb) :
    Streams w' (xs ++ w.sv.aofBuf) d multi data := by
  obtain ⟨hxs, rs, hfed, hrs, hmulti, hdata, hdb⟩ := h
  obtain ⟨heof, hrecs⟩ := parse_append_recs hxs hfed
  refine ⟨hrs ▸ heof, [], .nil, hbuf, ?_, ?_, ?_⟩
  · rw [hrs, hrecs, List.append_nil]
    exact hmulti
  · rw [hrs, hrecs, List.append_nil]
    exact hdata
  · rw [hrs, hrecs, List.append_nil, hsel]
    exact hdb

/-- A file that can be loaded, with nothing in the buffer. -/
theorem Streams.of_loads (h : loadContents [xs] d = some data) (heof : (AofFormat.parse xs).2 = .eof)
    (hbuf : w.sv.aofBuf = []) (hsel : w.sv.aofSelectedDb = none) : Streams w xs d false data := by
  obtain ⟨-, hqueue, hdata⟩ := loadContents_singleton.mp h
  refine ⟨heof, [], .nil, hbuf, ?_, ?_, .inl hsel⟩
  · simp [hqueue]
  · rw [List.append_nil, Replay.settled_of_queue hqueue]
    exact hdata

omit [AofFormat D A δ] in
/-- Up to its command, `feedAppendOnlyFile` only selects the database. -/
theorem feedRecs_replay (sv : Server D A δ) (dictid : Option Nat) (cmd : Rec A δ) (st : Replay A δ) :
    ∃ st' : Replay A δ, (feedRecs sv dictid cmd).foldl Replay.feed st = st'.feed cmd ∧
      st'.queue.isSome = st.queue.isSome ∧ st'.settled.data = st.settled.data ∧
      st'.settled.db = if selectNeeded sv dictid then dictid.getD 0 else st.settled.db := by
  unfold feedRecs
  have hts : ∀ st : Replay A δ, st.feed .timestamp = st := by
    rintro ⟨db, data, queue⟩
    cases queue <;> rfl
  have hselect : ∀ db, (st.feed (.select db)).queue.isSome = st.queue.isSome ∧
      (st.feed (.select db)).settled.data = st.settled.data ∧ (st.feed (.select db)).settled.db = db := by
    intro db
    rw [st.settled_feed]
    exact ⟨Replay.feed_isSome nofun nofun, rfl, rfl⟩
  cases selectNeeded sv dictid with
  | false =>
      refine ⟨st, ?_, rfl, rfl, rfl⟩
      cases timestampNeeded sv <;> simp [hts]
  | true =>
      refine ⟨st.feed (.select (dictid.getD 0)), ?_, hselect _⟩
      cases timestampNeeded sv <;> simp [hts]

theorem Streams.feed (h : Streams w xs d multi data) (hon : w.sv.aofState = .on) {dictid : Option Nat}
    {cmd : Rec A δ} (hfed : Fed [cmd])
    (hqueue : ∀ st : Replay A δ, st.queue.isSome = multi → (st.feed cmd).queue.isSome = multi')
    (hexec : ∀ st : Replay A δ, st.data = data → (∀ db, dictid = some db → st.db = db) →
      (st.exec cmd).data = data' ∧ (st.exec cmd).db = st.db) :
    Streams (feedAppendOnlyFile dictid cmd w) xs d multi' data' := by
  obtain ⟨heof, rs, hfed', hrs, hmulti, hdata, hdb⟩ := h
  obtain ⟨st, hfold, hsame, hkept, hsel⟩ := feedRecs_replay w.sv dictid cmd (replay (recs xs ++ rs) d)
  -- the client is on the database of the command when it gets there
  have hthere : ∀ db, dictid = some db → st.settled.db = db := by
    intro db hdict
    rw [hsel]
    split
    · simp [hdict]
    · next hneed =>
        have hcur : w.sv.aofSelectedDb = some db := by
          by_contra hne
          exact hneed (by simp [selectNeeded, hdict, Ne.symm hne])
        rcases hdb with hnone | heq
        · rw [hnone] at hcur
          cases hcur
        · exact Option.some.inj (heq.symm.trans hcur)
  obtain ⟨hdata', hdb'⟩ := hexec st.settled (hkept.trans hdata) hthere
  have hreplay : replay (recs xs ++ (rs ++ feedRecs w.sv dictid cmd)) d = st.feed cmd := by
    rw [← List.append_assoc]
    unfold replay at hfold ⊢
    rw [List.foldl_append, hfold]
  refine ⟨heof, rs ++ feedRecs w.sv dictid cmd, hfed'.append (hfed.feedRecs _ _), ?_, ?_, ?_, ?_⟩
  · simp [feedAppendOnlyFile, feedAppends, hon, hrs]
  · rw [hreplay]
    exact hqueue st (hsame.trans hmulti)
  · rw [hreplay, Replay.settled_feed]
    exact hdata'
  · rw [hreplay, Replay.settled_feed, hdb', hsel]
    show (if selectNeeded w.sv dictid then dictid else w.sv.aofSelectedDb) = none ∨
      (if selectNeeded w.sv dictid then dictid else w.sv.aofSelectedDb) = _
    split
    · next hneed =>
        cases dictid with
        | none => simp [selectNeeded] at hneed
        | some db => exact .inr rfl
    · exact hdb

/-- The file system, the manifest and the descriptor stay. -/
structure SameFiles (w w' : World D A δ) : Prop where
  disk : w'.disk = w.disk
  exited : w'.exited = w.exited
  conf : w'.sv.conf = w.sv.conf
  aofState : w'.sv.aofState = w.sv.aofState
  aofManifest : w'.sv.aofManifest = w.sv.aofManifest
  aofFd : w'.sv.aofFd = w.sv.aofFd

/-- What propagation leaves alone. -/
structure Propagated (w w' : World D A δ) : Prop extends SameFiles w w' where
  inExec : w'.sv.inExec = w.sv.inExec
  dataset : w'.sv.dataset = w.sv.dataset

omit [Commands A δ] in
theorem propagatePendingCommands_propagated (arbitrary : Bool) (w : World D A δ) :
    Propagated w (propagatePendingCommands arbitrary w) := by
  refine propagatePendingCommands_inv (I := Propagated w) ?_ ?_ arbitrary ⟨⟨rfl, rfl, rfl, rfl, rfl, rfl⟩, rfl, rfl⟩
  · intro dictid len cmd v h
    obtain ⟨⟨hdisk, hexit, hconf, hstate, hman, hfd⟩, hexec, hdata⟩ := h
    unfold propagateNow
    dsimp only
    split
    · split <;> exact ⟨⟨hdisk, hexit, hconf, hstate, hman, hfd⟩, hexec, hdata⟩
    · exact ⟨⟨hdisk, hexit, hconf, hstate, hman, hfd⟩, hexec, hdata⟩
  · exact fun v h => ⟨⟨h.disk, h.exited, h.conf, h.aofState, h.aofManifest, h.aofFd⟩, h.inExec, h.dataset⟩

omit [Commands A δ] in
/-- With the AOF on, every propagated command is fed. -/
theorem propagateNow_on (hon : w.sv.aofState = .on) (dictid : Option Nat) (len : Nat) (cmd : Nat → Rec A δ) :
    ∃ off, propagateNow dictid len cmd w =
      (feedAppendOnlyFile dictid (cmd off) w).set fun sv => { sv with masterReplOffset := off } := by
  refine ⟨w.sv.masterReplOffset + replAdvance w.sv len, ?_⟩
  unfold propagateNow
  simp [shouldPropagate, hon]

/-- The AOF is on, and what is in the file and the buffer comes to `data`. -/
def OnStreams (w : World D A δ) (xs : List D) (d : δ) (multi : Bool) (data : δ) : Prop :=
  w.sv.aofState = .on ∧ Streams w xs d multi data

theorem OnStreams.op (h : OnStreams w xs d multi data) (op : RedisOp A) :
    OnStreams (propagateOp w op) xs d multi (Commands.apply op.db op.argv data) := by
  obtain ⟨hon, h⟩ := h
  obtain ⟨off, heq⟩ := propagateNow_on hon (some op.db) (op.replLen + 1) (.command op.argv op.db)
  unfold propagateOp
  rw [heq]
  refine ⟨hon, (h.feed hon ?_ ?_ ?_).of_eq rfl (.inr rfl)⟩
  · intro r hr
    obtain rfl := List.mem_singleton.mp hr
    nofun
  · exact fun st hmulti => (Replay.feed_isSome (by simp) (by simp)).trans hmulti
  · intro st hdata hdb
    refine ⟨?_, rfl⟩
    show Commands.apply st.db op.argv st.data = _
    rw [hdb op.db rfl, hdata]

theorem OnStreams.beginMulti (h : OnStreams w xs d false data) :
    OnStreams (propagateNow none 15 (fun _ => .multi) w) xs d true data := by
  obtain ⟨hon, h⟩ := h
  obtain ⟨off, heq⟩ := propagateNow_on hon none 15 fun _ => (.multi : Rec A δ)
  rw [heq]
  refine ⟨hon, (h.feed hon ?_ ?_ ?_).of_eq rfl (.inr rfl)⟩
  · intro r hr
    obtain rfl := List.mem_singleton.mp hr
    nofun
  · rintro ⟨db, data, queue⟩ hmulti
    cases queue with
    | none => rfl
    | some q => cases hmulti
  · exact fun st hdata _ => ⟨hdata, rfl⟩

theorem OnStreams.endMulti (h : OnStreams w xs d true data) :
    OnStreams (propagateNow none 14 (fun _ => .exec) w) xs d false data := by
  obtain ⟨hon, h⟩ := h
  obtain ⟨off, heq⟩ := propagateNow_on hon none 14 fun _ => (.exec : Rec A δ)
  rw [heq]
  refine ⟨hon, (h.feed hon ?_ ?_ ?_).of_eq rfl (.inr rfl)⟩
  · intro r hr
    obtain rfl := List.mem_singleton.mp hr
    nofun
  · rintro ⟨db, data, queue⟩ hmulti
    cases queue with
    | none => cases hmulti
    | some q =>
        show (q.foldl Replay.exec ⟨db, data, none⟩).queue.isSome = false
        rw [Replay.foldl_exec_queue]
        rfl
  · exact fun st hdata _ => ⟨hdata, rfl⟩

/-- The dataset after the commands of `also_propagate`. -/
def applyOps (ops : List (RedisOp A)) (d : δ) : δ :=
  ops.foldl (fun d op => Commands.apply op.db op.argv d) d

theorem OnStreams.ops (h : OnStreams w xs d multi data) (ops : List (RedisOp A)) :
    OnStreams (ops.foldl propagateOp w) xs d multi (applyOps ops data) := by
  induction ops generalizing w data with
  | nil => exact h
  | cons op ops ih => exact ih (h.op op)

theorem Streams.propagate (h : Streams w xs d false data) (hon : w.sv.aofState = .on) (arbitrary : Bool) :
    Streams (propagatePendingCommands arbitrary w) xs d false (applyOps w.sv.alsoPropagate data) := by
  have h' : OnStreams w xs d false data := ⟨hon, h⟩
  unfold propagatePendingCommands
  dsimp only
  split
  · exact (h'.beginMulti.ops w.sv.alsoPropagate).endMulti.2.of_eq rfl (.inr rfl)
  · exact (h'.ops w.sv.alsoPropagate).2.of_eq rfl (.inr rfl)

omit [AofFormat D A δ] in
/-- A write executes its commands and leaves them to be propagated. -/
theorem foldl_writeOp_on (ops : List (RedisOp A)) (sv : Server D A δ) (hon : sv.aofState = .on) :
    (ops.foldl writeOp sv).dataset = applyOps ops sv.dataset ∧
      (ops.foldl writeOp sv).alsoPropagate = sv.alsoPropagate ++ ops := by
  induction ops generalizing sv with
  | nil => simp [applyOps]
  | cons op ops ih =>
      obtain ⟨hdata, hops⟩ := ih (writeOp sv op) hon
      refine ⟨hdata, hops.trans ?_⟩
      simp [writeOp, shouldPropagate, hon]

end Feeding

end WasiPorts.Redis.Aof
