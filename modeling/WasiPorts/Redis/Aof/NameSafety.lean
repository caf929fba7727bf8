import WasiPorts.Redis.Aof.Ownership

/-!
# When the file names stay owned

The WASI branch of `startAppendOnly` frees the two names it got from the manifest functions as if
they were its own. On the error paths after that point `aofManifestFree` has freed them already;
on the success path they belong to the installed manifest, which is left with dead names. So the
branch keeps the ownership of names exactly when it fails before it asks for a name
(`startAppendOnly_names_safe_iff`).
-/

namespace WasiPorts.Redis.Aof.Ownership

open WasiPorts.CellStore

/-- The entries of `am` are live cells that hold the names of `m`. -/
def Holds (st : Store String) (am : AofManifest Addr) (m : AofManifest String) : Prop :=
  am.map st.get = m.map some

/-- A server whose manifest owns its names: each is a live cell of its own. -/
structure OwnedServer where
  state : State String Server
  value : AofManifest String
  holds : Holds state.store state.rest.aofManifest value
  nodup : state.rest.aofManifest.names.Nodup

/-- The manifest that the branch is meant to install: the new BASE, the new INCR, and the old
files as HISTORY, which is emptied unless garbage collection is off. -/
def enabledManifest (cf : Conf) (m : AofManifest String) : AofManifest String :=
  let m := (Aof.getNewBaseFileNameAndMarkPreAsHistory cf m).2
  let m := (Aof.getNewIncrAofName cf m).2
  let m := Aof.markRewrittenIncrAofAsHistory true m
  if cf.aofDisableAutoGc then m else { m with historyAofList := [] }

/-- The run returns without touching a dead cell, every name in the server's manifest is live, and
persisting that manifest writes the names it should have. -/
def NamesSafe (cf : Conf) (o : Outcomes) (x : OwnedServer) : Prop :=
  ∃ ret s', startAppendOnly cf o x.state = .ok (ret, s') ∧
    (∀ a ∈ s'.rest.aofManifest.names, (s'.store.get a).isSome) ∧
    ∃ am s'', persistAofManifest cf .success { s'.rest.aofManifest with dirty := true } s' =
        .ok ((.ok, am), s'') ∧
      s''.rest.manifestFile = some (match ret with
        | .ok => (enabledManifest cf x.value).lines
        | .err => x.value.lines)

/-! ## What the pieces leave alone -/

abbrev KeepsManifest {β : Type} (x : M β) : Prop := Frame Server.aofManifest x

theorem use_keeps (a : Addr) : KeepsManifest (use a) :=
  .bind (.read a) fun _ => .pure _

theorem makePath_keeps (cf : Conf) (a : Addr) : KeepsManifest (makePath cf a) :=
  .bind (.read a) fun _ => .alloc _

theorem freeList_keeps (l : List (AofInfo Addr)) : KeepsManifest (freeList l) := by
  induction l with
  | nil => exact .pure ()
  | cons ai rest ih => exact .bind (.free _) fun _ => ih

theorem formatList_keeps (l : List (AofInfo Addr)) : KeepsManifest (formatList l) := by
  induction l with
  | nil => exact .pure []
  | cons ai rest ih => exact .bind (.read _) fun _ => .bind ih fun _ => .pure _

theorem writeAofManifestFile_keeps (cf : Conf) (w : ManifestWrite) (buf : List (AofInfo String)) :
    KeepsManifest (writeAofManifestFile cf w buf) := by
  refine .bind (.alloc _) fun _ => .bind (makePath_keeps cf _) fun _ => .bind (.alloc _) fun _ =>
    .bind (makePath_keeps cf _) fun _ => .bind (use_keeps _) fun _ => ?_
  have hfree : ∀ a b c d, KeepsManifest (do
      free a
      free b
      free c
      free d
      pure w.status) := fun a b c d =>
    .bind (.free a) fun _ => .bind (.free b) fun _ => .bind (.free c) fun _ =>
      .bind (.free d) fun _ => .pure _
  split
  · exact .bind (use_keeps _) fun _ => .bind (.update fun _ => rfl) fun _ => hfree _ _ _ _
  · exact .bind (use_keeps _) fun _ => hfree _ _ _ _

theorem persistAofManifest_keeps (cf : Conf) (w : ManifestWrite) (am : AofManifest Addr) :
    KeepsManifest (persistAofManifest cf w am) := by
  unfold persistAofManifest
  split
  · exact .pure _
  · exact .bind (formatList_keeps _) fun _ =>
      .bind (writeAofManifestFile_keeps cf w _) fun _ => .pure _

theorem deleteHistory_keeps (cf : Conf) (l : List (AofInfo Addr)) :
    KeepsManifest (deleteHistory cf l) := by
  induction l with
  | nil => exact .pure ()
  | cons ai rest ih =>
      exact .bind (use_keeps _) fun _ => .bind (makePath_keeps cf _) fun _ =>
        .bind (use_keeps _) fun _ => .bind (.free _) fun _ => .bind (.free _) fun _ => ih

theorem getAppendOnlyFileSize_keeps (cf : Conf) (a : Addr) :
    KeepsManifest (getAppendOnlyFileSize cf a) :=
  .bind (makePath_keeps cf a) fun _ => .bind (use_keeps _) fun _ => .free _

/-! ## The base entry along the way -/

theorem persistAofManifest_base {cf : Conf} {w : ManifestWrite} {am am' : AofManifest Addr}
    {ret : Status} {s s' : State String Server}
    (h : persistAofManifest cf w am s = .ok ((ret, am'), s')) :
    am'.baseAofInfo = am.baseAofInfo := by
  unfold persistAofManifest at h
  split at h
  · cases h
    rfl
  · obtain ⟨buf, s₁, -, h⟩ := bind_returns h
    obtain ⟨r, s₂, -, h⟩ := bind_returns h
    cases h
    split <;> rfl

theorem markRewrittenIncrAofAsHistory_base {am am' : AofManifest Addr}
    {s s' : State String Server} (h : markRewrittenIncrAofAsHistory am s = .ok (am', s')) :
    am'.baseAofInfo = am.baseAofInfo := by
  unfold markRewrittenIncrAofAsHistory at h
  split at h
  · cases h
    rfl
  · obtain ⟨s₀, s₁, -, h⟩ := bind_returns h
    obtain ⟨history, s₂, -, h⟩ := bind_returns h
    cases h
    rfl

/-- Freeing a manifest kills the name of its base. -/
theorem aofManifestFree_base {am : AofManifest Addr} {ai : AofInfo Addr} {u : Unit}
    {s s' : State String Server} (hbase : am.baseAofInfo = some ai)
    (h : aofManifestFree am s = .ok (u, s')) : s'.store.get ai.fileName = none := by
  unfold aofManifestFree at h
  rw [hbase] at h
  obtain ⟨_, s₁, hb, h⟩ := bind_returns h
  obtain ⟨_, s₂, hincr, hhist⟩ := bind_returns h
  obtain ⟨_, s₃, hfree, hnil⟩ := bind_returns hb
  obtain ⟨⟨v, hlive⟩, rfl⟩ := free_returns hfree
  cases hnil
  have hlt := Store.lt_size_of_get hlive
  have hlater := (freeList_keeps _ _ _ _ hincr).1.trans (freeList_keeps _ _ _ _ hhist).1
  exact hlater.dead _ (by simpa using hlt) (Store.get_kill_self _ _)

/-- Deleting the history keeps the base entry and revives no name. -/
theorem aofDelHistoryFiles_base {cf : Conf} {w : ManifestWrite} {u : Unit}
    {s s' : State String Server} (h : aofDelHistoryFiles cf w s = .ok (u, s')) :
    s.store.Later s'.store ∧
      s'.rest.aofManifest.baseAofInfo = s.rest.aofManifest.baseAofInfo := by
  unfold aofDelHistoryFiles at h
  obtain ⟨s₀, s₁, hget, h⟩ := bind_returns h
  cases hget
  simp only at h
  split at h
  · cases h
    exact ⟨.refl _, rfl⟩
  · obtain ⟨_, s₂, hdel, h⟩ := bind_returns h
    obtain ⟨⟨ret, am⟩, s₃, hpersist, h⟩ := bind_returns h
    cases h
    have hbase := persistAofManifest_base hpersist
    exact ⟨(deleteHistory_keeps cf _ _ _ _ hdel).1.trans
      (persistAofManifest_keeps cf w _ _ _ _ hpersist).1, hbase⟩

/-! ## From the first name on, ownership is lost -/

/-- A name freed with its manifest cannot be freed again. -/
theorem aofManifestFree_then_free {am : AofManifest Addr} {ai : AofInfo Addr} {β : Type}
    {next : M β} {b : β} {s s' : State String Server} (hbase : am.baseAofInfo = some ai)
    (h : (do
      aofManifestFree am
      free ai.fileName
      next) s = .ok (b, s')) : False := by
  obtain ⟨_, s₁, hfree, h⟩ := bind_returns h
  obtain ⟨_, s₂, hagain, -⟩ := bind_returns h
  obtain ⟨⟨v, hlive⟩, -⟩ := free_returns hagain
  rw [aofManifestFree_base hbase hfree] at hlive
  cases hlive

/-- If the tail of the branch returns at all, the name of the installed base is dead. -/
theorem persistAndInstall_dead {cf : Conf} {o : Outcomes} {am : AofManifest Addr}
    {ai : AofInfo Addr} {basePath incr incrPath : Addr} {ret : Status} {s s' : State String Server}
    (hbase : am.baseAofInfo = some ai)
    (h : persistAndInstall cf o am ai.fileName basePath incr incrPath s = .ok (ret, s')) :
    ∃ ai' ∈ s'.rest.aofManifest.baseAofInfo, s'.store.get ai'.fileName = none := by
  unfold persistAndInstall at h
  obtain ⟨am₁, s₁, hmark, h⟩ := bind_returns h
  obtain ⟨⟨r, am₂⟩, s₂, hpersist, h⟩ := bind_returns h
  have hbase₂ : am₂.baseAofInfo = some ai := by
    rw [persistAofManifest_base hpersist, markRewrittenIncrAofAsHistory_base hmark, hbase]
  simp only at h
  split at h
  · obtain ⟨_, s₃, -, h⟩ := bind_returns h
    obtain ⟨_, s₄, -, h⟩ := bind_returns h
    exact (aofManifestFree_then_free hbase₂ h).elim
  · obtain ⟨_, s₃, hupd, h⟩ := bind_returns h
    obtain ⟨_, s₄, hsize, h⟩ := bind_returns h
    obtain ⟨_, s₅, hfree, h⟩ := bind_returns h
    obtain ⟨_, s₆, hfree₁, h⟩ := bind_returns h
    obtain ⟨_, s₇, hfree₂, h⟩ := bind_returns h
    obtain ⟨_, s₈, hfree₃, h⟩ := bind_returns h
    obtain ⟨_, s₉, hdel, h⟩ := bind_returns h
    cases h
    -- the installed manifest is the one whose base name is freed next
    have hinst : s₃.rest.aofManifest = am₂ := by
      obtain ⟨_, t₁, hget, hupd⟩ := bind_returns hupd
      obtain ⟨_, t₂, -, hupd⟩ := bind_returns hupd
      cases hupd
      rfl
    obtain ⟨⟨v, hlive⟩, rfl⟩ := free_returns hfree
    have hlt := Store.lt_size_of_get hlive
    obtain ⟨hlater, hkeep⟩ := (Frame.bind (.free _) fun _ => .bind (.free _) fun _ => .free _ :
      KeepsManifest (do
        free basePath
        free incr
        free incrPath)) _ _ s₈ (by rw [bind_run hfree₁, bind_run hfree₂, hfree₃])
    obtain ⟨hlater', hkeep'⟩ := aofDelHistoryFiles_base hdel
    refine ⟨ai, ?_, ?_⟩
    · rw [hkeep', hkeep, (getAppendOnlyFileSize_keeps cf _ _ _ _ hsize).2, hinst, hbase₂]
      rfl
    · exact (hlater.trans hlater').dead _ (by simpa using hlt) (Store.get_kill_self _ _)

/-- The same for everything after the rewrite. -/
theorem takeOver_dead {cf : Conf} {o : Outcomes} {ret : Status} {s s' : State String Server}
    (h : takeOver cf o s = .ok (ret, s')) :
    ∃ ai ∈ s'.rest.aofManifest.baseAofInfo, s'.store.get ai.fileName = none := by
  unfold takeOver at h
  obtain ⟨s₀, s₁, -, h⟩ := bind_returns h
  obtain ⟨am, s₂, -, h⟩ := bind_returns h
  obtain ⟨⟨newBase, am₁⟩, s₃, hnew, h⟩ := bind_returns h
  have hbase : am₁.baseAofInfo = some ⟨newBase, am.currBaseFileSeq + 1, .base⟩ := by
    obtain ⟨a, t, -, hpure⟩ := bind_returns hnew
    cases hpure
    rfl
  obtain ⟨newBasePath, s₄, -, h⟩ := bind_returns h
  obtain ⟨_, s₅, -, h⟩ := bind_returns h
  split at h
  · exact (aofManifestFree_then_free hbase h).elim
  · obtain ⟨tempIncrName, s₆, -, h⟩ := bind_returns h
    obtain ⟨tempIncrPath, s₇, -, h⟩ := bind_returns h
    obtain ⟨⟨newIncr, am₂⟩, s₈, hincr, h⟩ := bind_returns h
    have hbase₂ : am₂.baseAofInfo = some ⟨newBase, am.currBaseFileSeq + 1, .base⟩ := by
      obtain ⟨a, t, -, hpure⟩ := bind_returns hincr
      cases hpure
      exact hbase
    obtain ⟨newIncrPath, s₉, -, h⟩ := bind_returns h
    obtain ⟨_, t₁, -, h⟩ := bind_returns h
    obtain ⟨_, t₂, -, h⟩ := bind_returns h
    split at h
    · obtain ⟨_, t₃, -, h⟩ := bind_returns h
      exact (aofManifestFree_then_free hbase₂ h).elim
    · obtain ⟨_, t₃, -, h⟩ := bind_returns h
      obtain ⟨_, t₄, -, h⟩ := bind_returns h
      exact persistAndInstall_dead hbase₂ h

/-! ## Before the first name, nothing is lost -/

theorem use_run {a : Addr} {v : String} {s : State String Server}
    (h : s.store.get a = some v) : use a s = .ok ((), s) :=
  bind_run (read_run h)

theorem makePath_run (cf : Conf) {a : Addr} {v : String} {s : State String Server}
    (h : s.store.get a = some v) :
    makePath cf a s = .ok (s.store.size, { s with store := s.store.push (cf.path v) }) :=
  bind_run (read_run h)

/-- The store after a name and its path were allocated and freed again. -/
def scratch (st : Store String) (name path : String) : Store String :=
  (((st.push name).push path).kill (st.size + 1)).kill st.size

theorem scratch_get {st : Store String} {name path : String} {a : Addr} (ha : a < st.size) :
    (scratch st name path).get a = st.get a := by
  have hne : a ≠ st.size := Nat.ne_of_lt ha
  have hne' : a ≠ st.size + 1 := Nat.ne_of_lt (Nat.lt_succ_of_lt ha)
  rw [scratch, Store.get_kill_of_ne hne, Store.get_kill_of_ne hne',
    Store.get_push_of_ne _ (by simpa using hne'), Store.get_push_of_ne _ hne]

section Scratch

variable (st : Store String) (name path : String)

theorem name_live : ((st.push name).push path).get st.size = some name := by
  rw [Store.get_push_of_ne _ (by simp), Store.get_push_self]

theorem path_live : ((st.push name).push path).get (st.size + 1) = some path := by
  have := Store.get_push_self (st.push name) path
  rwa [Store.size_push] at this

theorem name_live_after : (((st.push name).push path).kill (st.size + 1)).get st.size = some name := by
  rw [Store.get_kill_of_ne (by simp), name_live]

end Scratch

theorem openTempIncrAof_run (cf : Conf) (openOk : Bool) (s : State String Server) :
    ∃ rest, openTempIncrAof cf openOk s = .ok (if openOk then .ok else .err,
        ⟨scratch s.store cf.tempIncrAofName (cf.path cf.tempIncrAofName), rest⟩) ∧
      rest.aofManifest = s.rest.aofManifest := by
  have hname := Store.get_push_self s.store cf.tempIncrAofName
  have hpath := path_live s.store cf.tempIncrAofName (cf.path cf.tempIncrAofName)
  have hafter := name_live_after s.store cf.tempIncrAofName (cf.path cf.tempIncrAofName)
  unfold openTempIncrAof
  rw [bind_run (rfl : alloc _ _ = _), bind_run (makePath_run cf hname)]
  simp only [Store.size_push]
  rw [bind_run (use_run hpath), bind_run (free_run hpath), bind_run (use_run hafter),
    bind_run (free_run hafter)]
  cases openOk with
  | true => exact ⟨_, rfl, rfl⟩
  | false => exact ⟨_, rfl, rfl⟩

theorem aofDelTempIncrAofFile_run (cf : Conf) (s : State String Server) :
    aofDelTempIncrAofFile cf s = .ok ((),
      ⟨scratch s.store cf.tempIncrAofName (cf.path cf.tempIncrAofName), s.rest⟩) := by
  have hname := Store.get_push_self s.store cf.tempIncrAofName
  have hlive := name_live s.store cf.tempIncrAofName (cf.path cf.tempIncrAofName)
  have hpath := path_live s.store cf.tempIncrAofName (cf.path cf.tempIncrAofName)
  have hafter := name_live_after s.store cf.tempIncrAofName (cf.path cf.tempIncrAofName)
  unfold aofDelTempIncrAofFile
  rw [bind_run (rfl : alloc _ _ = _), bind_run (makePath_run cf hname)]
  simp only [Store.size_push]
  rw [bind_run (use_run hlive), bind_run (use_run hpath), bind_run (free_run hpath),
    free_run hafter]
  rfl

/-- A branch that fails early returns an error, and every cell that existed before is as it was. -/
theorem startAppendOnly_early (cf : Conf) {o : Outcomes} (s : State String Server)
    (ho : o.dirCreate = false ∨ o.openTempIncr = false ∨ o.rewrite = false) :
    ∃ s', startAppendOnly cf o s = .ok (.err, s') ∧
      s'.rest.aofManifest = s.rest.aofManifest ∧
      ∀ a < s.store.size, s'.store.get a = s.store.get a := by
  unfold startAppendOnly
  split
  · exact ⟨s, rfl, rfl, fun _ _ => rfl⟩
  next hdir =>
  obtain ⟨rest, hopen, hkeep⟩ := openTempIncrAof_run cf o.openTempIncr s
  rw [bind_run hopen]
  by_cases hincr : o.openTempIncr = true
  · have hrewrite : o.rewrite = false := by
      rcases ho with h | h | h
      · exact absurd h hdir
      · rw [hincr] at h
        cases h
      · exact h
    simp only [hincr, hrewrite, if_true]
    refine ⟨_, bind_run (aofDelTempIncrAofFile_run cf _), hkeep, ?_⟩
    intro a ha
    -- `scratch` only adds cells, so an old cell is still below the new end.
    rw [scratch_get (Nat.lt_of_lt_of_le ha (by simp [scratch]; omega)), scratch_get ha]
  · simp only [hincr]
    exact ⟨_, rfl, hkeep, fun a ha => scratch_get ha⟩

/-! ## Persisting a manifest that owns its names -/

theorem formatList_run {s : State String Server} {l : List (AofInfo Addr)}
    {l' : List (AofInfo String)} (h : l.map (·.map s.store.get) = l'.map (·.map some)) :
    formatList l s = .ok (l', s) := by
  induction l generalizing l' with
  | nil =>
      have hnil : l' = [] := by simpa using h.symm
      rw [hnil]
      rfl
  | cons ai rest ih =>
      cases l' with
      | nil => cases h
      | cons ai' rest' =>
          simp only [List.map_cons, List.cons.injEq] at h
          obtain ⟨hname, hseq, htype⟩ := AofInfo.mk.inj h.1
          unfold formatList
          rw [bind_run (read_run hname), bind_run (ih h.2), hseq, htype]
          rfl

/-- The store after the four names of `writeAofManifestFile` were allocated. -/
def fourNames (st : Store String) (n p n' p' : String) : Store String :=
  (((st.push n).push p).push n').push p'

theorem fourNames_get (st : Store String) (n p n' p' : String) :
    (fourNames st n p n' p').get st.size = some n ∧
      (fourNames st n p n' p').get (st.size + 1) = some p ∧
      (fourNames st n p n' p').get (st.size + 2) = some n' ∧
      (fourNames st n p n' p').get (st.size + 3) = some p' := by
  simp [fourNames, Store.get, Store.push, Store.size]

theorem writeAofManifestFile_run (cf : Conf) (buf : List (AofInfo String))
    (s : State String Server) :
    ∃ s', writeAofManifestFile cf .success buf s = .ok (.ok, s') ∧
      s'.rest.manifestFile = some buf := by
  obtain ⟨h₁, h₂, h₃, h₄⟩ := fourNames_get s.store cf.manifestName (cf.path cf.manifestName)
    cf.tempManifestName (cf.path cf.tempManifestName)
  have hname := Store.get_push_self s.store cf.manifestName
  have hname' := Store.get_push_self
    ((s.store.push cf.manifestName).push (cf.path cf.manifestName)) cf.tempManifestName
  unfold writeAofManifestFile
  rw [bind_run (rfl : alloc _ _ = _), bind_run (makePath_run cf hname),
    bind_run (rfl : alloc _ _ = _), bind_run (makePath_run cf hname')]
  simp only [Store.size_push]
  have hdone : ManifestWrite.success.replaced = true := rfl
  rw [bind_run (use_run h₄), if_pos hdone, bind_run (use_run h₂),
    bind_run (rfl : update _ _ = _), bind_run (free_run h₁)]
  rw [bind_run (free_run ((Store.get_kill_of_ne (by simp)).trans h₂))]
  rw [bind_run (free_run ((Store.get_kill_of_ne (by simp)).trans
    ((Store.get_kill_of_ne (by simp)).trans h₃)))]
  rw [bind_run (free_run ((Store.get_kill_of_ne (by simp)).trans
    ((Store.get_kill_of_ne (by simp)).trans ((Store.get_kill_of_ne (by simp)).trans h₄))))]
  exact ⟨_, rfl, rfl⟩

theorem Holds.lines {st : Store String} {am : AofManifest Addr} {m : AofManifest String}
    (h : Holds st am m) : am.lines.map (·.map st.get) = m.lines.map (·.map some) := by
  obtain ⟨hbase, hhist, hincr, -⟩ := AofManifest.mk.inj h
  have hb : am.baseAofInfo.toList.map (·.map st.get) = m.baseAofInfo.toList.map (·.map some) := by
    rw [← Option.toList_map, ← Option.toList_map]
    exact congrArg Option.toList hbase
  rw [AofManifest.lines, AofManifest.lines, List.map_append, List.map_append, List.map_append,
    List.map_append, hb, hhist, hincr]

theorem Holds.live {st : Store String} {am : AofManifest Addr} {m : AofManifest String}
    (h : Holds st am m) {a : Addr} (ha : a ∈ am.names) : (st.get a).isSome := by
  obtain ⟨ai, hai, rfl⟩ := List.mem_map.mp ha
  have hmem : ai.map st.get ∈ m.lines.map (·.map some) := by
    rw [← h.lines]
    exact List.mem_map_of_mem hai
  obtain ⟨ai', -, heq⟩ := List.mem_map.mp hmem
  have hname : some ai'.fileName = st.get ai.fileName := congrArg AofInfo.fileName heq
  rw [← hname]
  rfl

/-- Persisting a manifest that owns its names writes these names. -/
theorem persistAofManifest_run (cf : Conf) {am : AofManifest Addr} {m : AofManifest String}
    {s : State String Server} (h : Holds s.store am m) :
    ∃ am' s', persistAofManifest cf .success { am with dirty := true } s = .ok ((.ok, am'), s') ∧
      s'.rest.manifestFile = some m.lines := by
  obtain ⟨s', hwrite, hfile⟩ := writeAofManifestFile_run cf m.lines s
  have hformat : getAofManifestAsString { am with dirty := true } s = .ok (m.lines, s) :=
    formatList_run h.lines
  unfold persistAofManifest
  rw [if_neg (by simp), bind_run hformat, bind_run hwrite]
  exact ⟨_, s', rfl, hfile⟩

/-! ## The exact condition -/

/-- The WASI branch of `startAppendOnly` keeps the ownership of file names — it touches no dead
cell, and on return every name in the server's manifest is live and is what a later persist
writes — exactly when it fails before asking the manifest for a name: at creating the directory,
at opening the temp INCR file or at rewriting. -/
theorem startAppendOnly_names_safe_iff (cf : Conf) (o : Outcomes) (x : OwnedServer) :
    NamesSafe cf o x ↔ o.dirCreate = false ∨ o.openTempIncr = false ∨ o.rewrite = false := by
  constructor
  · rintro ⟨ret, s', hrun, hlive, -⟩
    by_contra hlate
    simp only [not_or, Bool.not_eq_false] at hlate
    obtain ⟨hdir, hincr, hrewrite⟩ := hlate
    obtain ⟨rest, hopen, -⟩ := openTempIncrAof_run cf o.openTempIncr x.state
    unfold startAppendOnly at hrun
    rw [hdir, if_neg (by simp), bind_run hopen, hincr, hrewrite] at hrun
    obtain ⟨ai, hai, hdead⟩ := takeOver_dead hrun
    have hmem : ai.fileName ∈ s'.rest.aofManifest.names := by
      refine List.mem_map_of_mem ?_
      rw [AofManifest.lines, List.append_assoc]
      exact List.mem_append_left _ (Option.mem_toList.mpr hai)
    have hsome := hlive _ hmem
    rw [hdead] at hsome
    cases hsome
  · intro hearly
    obtain ⟨s', hrun, hkeep, hcells⟩ := startAppendOnly_early cf x.state hearly
    have hholds : Holds s'.store s'.rest.aofManifest x.value := by
      have hsame : s'.rest.aofManifest.map s'.store.get =
          x.state.rest.aofManifest.map x.state.store.get := by
        rw [hkeep]
        refine AofManifest.map_congr fun a ha => hcells a ?_
        obtain ⟨v, hv⟩ := Option.isSome_iff_exists.mp (x.holds.live ha)
        exact Store.lt_size_of_get hv
      exact hsame.trans x.holds
    refine ⟨.err, s', hrun, fun a ha => hholds.live ha, ?_⟩
    exact persistAofManifest_run cf hholds

/-! ## A run without any failing step -/

def exampleConf : Conf := ⟨"appendonly.aof", "appendonlydir", true, false⟩

/-- A server that was started with `appendonly yes` before and has one BASE and one INCR file. -/
def exampleServer : OwnedServer where
  state :=
    ⟨⟨[some "appendonly.aof.1.base.rdb", some "appendonly.aof.1.incr.aof"]⟩,
      ⟨⟨some ⟨0, 1, .base⟩, [], [⟨1, 1, .incr⟩], 1, 1, false⟩, false, none⟩⟩
  value :=
    ⟨some ⟨"appendonly.aof.1.base.rdb", 1, .base⟩, [],
      [⟨"appendonly.aof.1.incr.aof", 1, .incr⟩], 1, 1, false⟩
  holds := rfl
  nodup := by decide

/-- All steps succeed. -/
def Outcomes.success : Outcomes := ⟨true, true, true, true, true, .success, .success⟩

/-- Every step succeeds, and `aofDelHistoryFiles` serialises the base name that was just freed. -/
theorem startAppendOnly_reads_freed_name :
    startAppendOnly exampleConf .success exampleServer.state = .error (.deadRead 6) ∧
      ¬ NamesSafe exampleConf .success exampleServer := by
  have hrun : startAppendOnly exampleConf .success exampleServer.state = .error (.deadRead 6) := by
    decide +kernel
  refine ⟨hrun, ?_⟩
  rintro ⟨ret, s', hok, -⟩
  rw [hrun] at hok
  cases hok

end WasiPorts.Redis.Aof.Ownership
