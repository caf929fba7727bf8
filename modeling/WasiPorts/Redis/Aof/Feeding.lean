import WasiPorts.Redis.Aof.TextFormat
import WasiPorts.Redis.Aof.Truncated

/-!
# Feeding and replaying text

`feedAppendOnlyFile` as it appends bytes to `aof_buf`, and the commands that are loaded from these bytes as
records to replay.

* `feedText_prints` — the bytes are the text of the records that are fed.
* `replay_fed` — what any sequence of calls has appended, transactions included, replays to the commands fed, each
  of them on its own database.
-/

namespace WasiPorts.Redis.Aof

open WasiPorts.Text

variable {D A δ : Type}

/-! ## Appending bytes -/

/-- The `SELECT` that `feedAppendOnlyFile` prints. -/
def selectText (dictid : Nat) : Bytes :=
  let seldb := decimal dictid
  bytes "*2\r\n$6\r\nSELECT\r\n$" ++ decimal seldb.length ++ crlf ++ seldb ++ crlf

/-- What `feedAppendOnlyFile` makes of a command. -/
def feedBytes (sv : Server D A δ) (dictid : Option Nat) (argv : List Robj) : Bytes :=
  let buf := if timestampNeeded sv then bytes "#TS:" ++ decimal sv.unixtime ++ crlf else []
  let buf := if selectNeeded sv dictid then buf ++ selectText (dictid.getD 0) else buf
  catAppendOnlyGenericCommand buf argv

/-- `feedAppendOnlyFile`. -/
def feedText (dictid : Option Nat) (argv : List Robj) (sv : Server UInt8 A δ) : Server UInt8 A δ :=
  { sv with
    aofCurTimestamp := if timestampNeeded sv then sv.unixtime else sv.aofCurTimestamp
    aofSelectedDb := if selectNeeded sv dictid then dictid else sv.aofSelectedDb
    aofBuf := if feedAppends sv then sv.aofBuf ++ feedBytes sv dictid argv else sv.aofBuf }

/-! ## Commands as records -/

/-- What the fake client does with a command: `none` if it is refused. The database and the offset of a record are
not in the file, and nothing depends on them. -/
def recOf (dbnum : Nat) (argv : List Bytes) : Option (Rec (List Bytes) δ) :=
  if isNamed argv "select" then
    match argv[1]?.bind string2ll with
    | some id => if 0 ≤ id ∧ id < dbnum then some (.select id.toNat) else none
    | none => none
  else if isNamed argv "multi" then some .multi
  else if isNamed argv "exec" then some .exec
  else some (.command argv 0 0)

/-- The item is the text of the record. -/
inductive PrintsRec : Rec (List Bytes) δ → Item → Prop
  | timestamp (now : Int) : PrintsRec .timestamp (.timestamp now)
  | select (db : Nat) : PrintsRec (.select db) (.command [bytes "SELECT", decimal db])
  | multi : PrintsRec .multi (.command [bytes "MULTI"])
  | exec : PrintsRec .exec (.command [bytes "EXEC"])
  | command (argv : List Bytes) (db off : Nat) : PrintsRec (.command argv db off) (.command argv)

/-- The command is none of those that the loader treats apart. -/
abbrev plain (argv : List Bytes) : Prop := ∀ name ∈ ["select", "multi", "exec"], isNamed argv name = false

section Print

variable {dictid : Option Nat} {argv : List Robj}

theorem decimal_length_lt {n : Nat} (hn : n < 2 ^ 31) : (decimal n).length ≤ 20 :=
  length_decimal_le (by omega) (by omega)

theorem selectText_eq (db : Nat) : selectText db = commandText [bytes "SELECT", decimal db] := by
  have hstart : bytes "*2\r\n$6\r\nSELECT\r\n$" = numberLine [42] 2 ++ bulk (bytes "SELECT") ++ [36] := by decide
  have htext : commandText [bytes "SELECT", decimal db] =
      numberLine [42] 2 ++ bulk (bytes "SELECT") ++ (numberLine [36] (decimal db).length ++ (decimal db ++ crlf)) := by
    simp [commandText, bulk]
  rw [selectText, hstart, htext]
  simp [numberLine]

/-- The items that are fed. -/
def feedItems (sv : Server D A δ) (dictid : Option Nat) (argv : List Robj) : List Item :=
  (if timestampNeeded sv then [.timestamp sv.unixtime] else []) ++
    (if selectNeeded sv dictid then [.command [bytes "SELECT", decimal (dictid.getD 0 : Nat)]] else []) ++
    [.command (argv.map getDecodedObject)]

theorem feedBytes_eq (sv : Server D A δ) (hfits : Fits (argv.map getDecodedObject)) :
    feedBytes sv dictid argv = fileText (feedItems sv dictid argv) := by
  unfold feedBytes
  dsimp only
  rw [catAppendOnlyGenericCommand_eq _ hfits, feedItems, fileText_append, fileText_append]
  congr 1
  · split <;> split <;> simp [selectText_eq, Item.text, numberLine]
  · simp [Item.text]

/-- The cells that `feedAppendOnlyFile` appends to a file of cells have these bytes. -/
theorem fileBytes_feedRecs {lk : LookupCommand} (sv : Server D (TextCommand lk) δ)
    (h : Ordinary lk (argv.map getDecodedObject)) (hdb : ∀ db ∈ dictid, db < 2 ^ 63) (db off : Nat) :
    fileBytes ((feedRecs sv dictid (.command ⟨_, h⟩ db off)).flatMap (text sv.unixtime)) =
      feedBytes sv dictid argv := by
  have hselect : fileBytes (text sv.unixtime (.select (dictid.getD 0)) : List (Cell lk δ)) =
      (Item.command [bytes "SELECT", decimal (dictid.getD 0 : Nat)]).text := by
    have hmod : dictid.getD 0 % 2 ^ 63 = dictid.getD 0 := by
      cases dictid with
      | none => rfl
      | some db => exact Nat.mod_eq_of_lt (hdb db rfl)
    rw [text, fileBytes_cells, hmod, Item.text]
  have htimestamp : fileBytes (text sv.unixtime .timestamp : List (Cell lk δ)) =
      (Item.timestamp sv.unixtime).text := by
    rw [text, fileBytes_cells]
  have hcommand : fileBytes (text sv.unixtime (.command ⟨argv.map getDecodedObject, h⟩ db off) : List (Cell lk δ)) =
      (Item.command (argv.map getDecodedObject)).text := by
    rw [text, fileBytes_cells, Item.text]
  rw [feedBytes_eq sv (loads_iff.mp h.loads).1, feedRecs, feedItems]
  split <;> split <;> simp [fileBytes_append, hselect, htimestamp, hcommand]

/-- **The bytes that are fed** are the text of the records that are fed. -/
theorem feedText_prints (sv : Server UInt8 (List Bytes) δ) {r : Rec (List Bytes) δ}
    (hr : PrintsRec r (.command (argv.map getDecodedObject))) (hfits : Fits (argv.map getDecodedObject))
    (hon : feedAppends sv = true) :
    List.Forall₂ PrintsRec (feedRecs sv dictid r) (feedItems sv dictid argv) ∧
      (feedText dictid argv sv).aofBuf = sv.aofBuf ++ fileText (feedItems sv dictid argv) := by
  constructor
  · unfold feedRecs feedItems
    split <;> split <;> simp [PrintsRec.timestamp, PrintsRec.select, hr]
  · rw [feedText, if_pos hon, feedBytes_eq sv hfits]

/-- The `SELECT` is missing only where the database is selected. -/
theorem selectNeeded_false {sv : Server UInt8 A δ} (h : selectNeeded sv dictid = false) :
    dictid = none ∨ dictid = sv.aofSelectedDb := by
  cases dictid with
  | none => exact .inl rfl
  | some db => exact .inr (by simpa [selectNeeded] using h)

theorem mem_feedItems {sv : Server UInt8 A δ} {item : Item} (h : item ∈ feedItems sv dictid argv) :
    item = .timestamp sv.unixtime ∨ (∃ db ∈ dictid, item = .command [bytes "SELECT", decimal (db : Nat)]) ∨
      item = .command (argv.map getDecodedObject) := by
  unfold feedItems at h
  simp only [List.mem_append, List.mem_singleton] at h
  rcases h with (h | h) | h
  · split at h
    · exact .inl (List.mem_singleton.mp h)
    · cases h
  · split at h
    · next hneeded =>
        cases dictid with
        | none => cases hneeded
        | some db => exact .inr (.inl ⟨db, rfl, List.mem_singleton.mp h⟩)
    · cases h
  · exact .inr (.inr h)

theorem mem_feedRecs {sv : Server UInt8 (List Bytes) δ} {cmd r : Rec (List Bytes) δ} (h : r ∈ feedRecs sv dictid cmd) :
    r = .timestamp ∨ (∃ db ∈ dictid, r = .select db) ∨ r = cmd := by
  unfold feedRecs at h
  simp only [List.mem_append, List.mem_singleton] at h
  rcases h with (h | h) | h
  · split at h
    · exact .inl (List.mem_singleton.mp h)
    · cases h
  · split at h
    · next hneeded =>
        cases dictid with
        | none => cases hneeded
        | some db => exact .inr (.inl ⟨db, rfl, List.mem_singleton.mp h⟩)
    · cases h
  · exact .inr (.inr h)

end Print

/-! ## Replaying text -/

section Replaying

variable {dbnum : Nat} {rs : List (Rec (List Bytes) δ)} {items : List Item}

/-- The record without what is not in the file. -/
def Rec.erase : Rec (List Bytes) δ → Rec (List Bytes) δ
  | .command argv _ _ => .command argv 0 0
  | r => r

def Replay.erase (st : Replay (List Bytes) δ) : Replay (List Bytes) δ :=
  { st with queue := st.queue.map (·.map Rec.erase) }

theorem string2ll_decimal {n : Nat} (hn : n < 2 ^ 31) : string2ll (decimal n) = some (n : Int) :=
  (string2ll_eq_some_iff _ _).mpr ⟨rfl, by omega, by omega⟩

/-- What is loaded of the text of a record is the record. -/
theorem recOf_prints {r : Rec (List Bytes) δ} {argv : List Bytes} (h : PrintsRec r (.command argv))
    (hdbnum : dbnum ≤ 2 ^ 31)
    (hdb : ∀ db, r = .select db → db < dbnum) (hplain : ∀ args db off, r = .command args db off → plain args) :
    recOf dbnum argv = some r.erase := by
  cases h with
  | multi => rfl
  | exec => rfl
  | select db =>
      have hlt := hdb db rfl
      have hname : isNamed [bytes "SELECT", decimal db] "select" = true := rfl
      have hid : [bytes "SELECT", decimal db][1]?.bind string2ll = some (db : Int) :=
        string2ll_decimal (by omega)
      rw [recOf, if_pos hname, hid]
      dsimp only
      rw [if_pos ⟨by omega, by omega⟩]
      rfl
  | command argv db off =>
      have hplain := hplain argv db off rfl
      rw [recOf, hplain "select" (by simp), hplain "multi" (by simp), hplain "exec" (by simp)]
      rfl

variable [Commands (List Bytes) δ]

theorem Replay.exec_erase (st : Replay (List Bytes) δ) (r : Rec (List Bytes) δ) :
    st.erase.exec r.erase = (st.exec r).erase := by
  cases r <;> rfl

theorem Replay.foldl_exec_erase (rs : List (Rec (List Bytes) δ)) (st : Replay (List Bytes) δ) :
    (rs.map Rec.erase).foldl exec st.erase = (rs.foldl exec st).erase := by
  induction rs generalizing st with
  | nil => rfl
  | cons r rs ih => rw [List.map_cons, List.foldl_cons, List.foldl_cons, exec_erase, ih]

theorem Replay.feed_erase (st : Replay (List Bytes) δ) (r : Rec (List Bytes) δ) :
    st.erase.feed r.erase = (st.feed r).erase := by
  obtain ⟨db, data, queue⟩ := st
  cases queue with
  | none => cases r <;> rfl
  | some q =>
      cases r with
      | exec => exact foldl_exec_erase q ⟨db, data, none⟩
      | timestamp => rfl
      | _ => simp [erase, Rec.erase, feed]

/-- **Replaying the text** of records is replaying the records. -/
theorem replay_prints (h : List.Forall₂ PrintsRec rs items) (hdbnum : dbnum ≤ 2 ^ 31)
    (hdb : ∀ db, .select db ∈ rs → db < dbnum) (hplain : ∀ argv db off, .command argv db off ∈ rs → plain argv)
    (pos : Nat) (d : δ) : replay ((entries pos items).filterMap (recOf dbnum ·.1)) d = (replay rs d).erase := by
  have hfold : ∀ st : Replay (List Bytes) δ,
      ((entries pos items).filterMap (recOf dbnum ·.1)).foldl Replay.feed st.erase =
        (rs.foldl Replay.feed st).erase := by
    induction h generalizing pos with
    | nil => exact fun st => rfl
    | @cons r item rs items hr _ ih =>
        intro st
        have hrest := fun pos => ih (fun db hi => hdb db (List.mem_cons_of_mem r hi))
          (fun argv db off hi => hplain argv db off (List.mem_cons_of_mem r hi)) pos (st.feed r)
        cases item with
        | timestamp now =>
            cases hr
            rw [List.foldl_cons, ← hrest]
            obtain ⟨db, data, queue⟩ := st
            cases queue <;> rfl
        | command argv =>
            have hrec := @recOf_prints δ dbnum r argv hr hdbnum (fun db hi => hdb db (hi ▸ List.mem_cons_self))
              (fun args db off hi => hplain args db off (hi ▸ List.mem_cons_self))
            rw [entries, @List.filterMap_cons_some _ _ _ (argv, _) _ _ hrec, List.foldl_cons, List.foldl_cons,
              Replay.feed_erase, hrest]
  exact hfold (.new d)

/-! ### Calls of `feedAppendOnlyFile` -/

/-- The command is appended as it is. -/
structure Feeds (lk : LookupCommand) (dbnum : Nat) (dictid : Option Nat) (argv : List Robj) : Prop where
  fits : Fits (argv.map getDecodedObject)
  known : lk.known (argv.map getDecodedObject) = true
  plain : plain (argv.map getDecodedObject)
  db : ∀ db ∈ dictid, db < dbnum

/-- Between two calls, the clock goes on and `aof-timestamp-enabled` is changed. A transaction is fed as
`propagatePendingCommands` does. -/
inductive FeedOp where
  | clock (unixtime : Int)
  | timestamps (enabled : Bool)
  | feed (dictid : Option Nat) (argv : List Robj)
  | transaction (ops : List (Option Nat × List Robj))

/-- A command on its database, or on the last one if it has none. -/
def directly (st : Nat × δ) (dictid : Option Nat) (argv : List Robj) : Nat × δ :=
  (dictid.getD st.1, Commands.apply (dictid.getD st.1) (argv.map getDecodedObject) st.2)

namespace FeedOp

def step (sv : Server UInt8 (List Bytes) δ) : FeedOp → Server UInt8 (List Bytes) δ
  | clock unixtime => { sv with unixtime := unixtime }
  | timestamps enabled => { sv with aofTimestampEnabled := enabled }
  | feed dictid argv => feedText dictid argv sv
  | transaction ops =>
    feedText none [.sds (bytes "EXEC")]
      (ops.foldl (fun sv op => feedText op.1 op.2 sv) (feedText none [.sds (bytes "MULTI")] sv))

/-- The commands themselves. -/
def direct (st : Nat × δ) : FeedOp → Nat × δ
  | feed dictid argv => directly st dictid argv
  | transaction ops => ops.foldl (fun st op => directly st op.1 op.2) st
  | _ => st

/-- A `time_t`; commands that can be read, on databases that there are. -/
def Ok (lk : LookupCommand) (dbnum : Nat) : FeedOp → Prop
  | clock unixtime => -2 ^ 63 ≤ unixtime ∧ unixtime < 2 ^ 63
  | timestamps _ => True
  | feed dictid argv => Feeds lk dbnum dictid argv
  | transaction ops => ∀ op ∈ ops, Feeds lk dbnum op.1 op.2

end FeedOp

/-- What has been fed is the text of records that replay to `st`, if an open transaction is executed. -/
structure FedText (lk : LookupCommand) (dbnum : Nat) (d : δ) (inside : Bool) (sv : Server UInt8 (List Bytes) δ)
    (st : Nat × δ) : Prop where
  on : feedAppends sv = true
  time : -2 ^ 63 ≤ sv.unixtime ∧ sv.unixtime < 2 ^ 63
  buf : ∃ items rs, List.Forall₂ PrintsRec rs items ∧ sv.aofBuf = fileText items ∧ (∀ item ∈ items, item.Fits) ∧
    (∀ argv, .command argv ∈ items → lk.known argv = true) ∧ (∀ db, .select db ∈ rs → db < dbnum) ∧
    (∀ argv db off, .command argv db off ∈ rs → plain argv) ∧ (replay rs d).settled = ⟨st.1, st.2, none⟩ ∧
    (replay rs d).queue.isSome = inside
  selected : ∀ db ∈ sv.aofSelectedDb, db = st.1

variable {lk : LookupCommand} {d : δ} {sv : Server UInt8 (List Bytes) δ} {st st' : Nat × δ} {inside inside' : Bool}

theorem fits_select {db : Nat} (hdb : db < 2 ^ 31) : Fits [bytes "SELECT", decimal db] := by
  have hlen := decimal_length_lt hdb
  have hname : (bytes "SELECT").length = 6 := rfl
  refine ⟨by simp, by simp, ?_⟩
  intro s hs
  simp only [List.mem_cons, List.not_mem_nil, or_false] at hs
  rcases hs with rfl | rfl <;> omega

theorem Replay.settled_foldl_feed (rs : List (Rec (List Bytes) δ)) (st : Replay (List Bytes) δ) :
    (rs.foldl feed st).settled = rs.foldl exec st.settled := by
  induction rs generalizing st with
  | nil => rfl
  | cons r rs ih => rw [List.foldl_cons, List.foldl_cons, ih, settled_feed]

omit [Commands (List Bytes) δ] in
theorem foldl_feedRecs {f : Replay (List Bytes) δ → Rec (List Bytes) δ → Replay (List Bytes) δ}
    (hf : ∀ st, f st .timestamp = st) (dictid : Option Nat) (r : Rec (List Bytes) δ) (st : Replay (List Bytes) δ) :
    (feedRecs sv dictid r).foldl f st =
      f (if selectNeeded sv dictid then f st (.select (dictid.getD 0)) else st) r := by
  unfold feedRecs
  split <;> split <;> simp [hf]

/-- One call: its records go behind those there are. -/
theorem FedText.append (h : FedText lk dbnum d inside sv st) {dictid : Option Nat} {argv : List Robj}
    {r : Rec (List Bytes) δ} (hr : PrintsRec r (.command (argv.map getDecodedObject)))
    (hfits : Fits (argv.map getDecodedObject)) (hknown : lk.known (argv.map getDecodedObject) = true)
    (hplain : ∀ argv db off, r = .command argv db off → plain argv) (hselect : ∀ db, r ≠ .select db)
    (hdbnum : dbnum ≤ 2 ^ 31) (hdb : ∀ db ∈ dictid, db < dbnum)
    (hexec : (feedRecs sv dictid r).foldl Replay.exec ⟨st.1, st.2, none⟩ = ⟨st'.1, st'.2, none⟩)
    (hinside : nextInside inside r = inside')
    (hselected : ∀ db ∈ (feedText dictid argv sv).aofSelectedDb, db = st'.1) :
    FedText lk dbnum d inside' (feedText dictid argv sv) st' := by
  obtain ⟨items, rs, hprints, hbuf, hitems, hlookup, hdbs, hargvs, hreplay, hqueue⟩ := h.buf
  obtain ⟨hprints', hbuf'⟩ := @feedText_prints δ dictid argv sv r hr hfits h.on
  refine ⟨h.on, h.time, ⟨items ++ feedItems sv dictid argv, rs ++ feedRecs sv dictid r,
    List.rel_append hprints hprints', ?_, ?_, ?_, ?_, ?_, ?_, ?_⟩, hselected⟩
  · rw [hbuf', hbuf, fileText_append]
  · intro item hi
    rcases List.mem_append.mp hi with hi | hi
    · exact hitems item hi
    -- the items of the call: an annotation, a `SELECT`, the command
    · rcases mem_feedItems hi with rfl | ⟨db, hmem, rfl⟩ | rfl
      · exact h.time
      · exact fits_select ((hdb db hmem).trans_le hdbnum)
      · exact hfits
  · intro args hi
    rcases List.mem_append.mp hi with hi | hi
    · exact hlookup args hi
    · rcases mem_feedItems hi with heq | ⟨db, -, heq⟩ | heq
      · cases heq
      · obtain rfl := Item.command.inj heq
        exact lk.select _
      · obtain rfl := Item.command.inj heq
        exact hknown
  · intro db hi
    rcases List.mem_append.mp hi with hi | hi
    · exact hdbs db hi
    · rcases mem_feedRecs hi with heq | ⟨db', hmem, heq⟩ | heq
      · cases heq
      · obtain rfl := Rec.select.inj heq
        exact hdb _ hmem
      · exact absurd heq.symm (hselect db)
  · intro args db off hi
    rcases List.mem_append.mp hi with hi | hi
    · exact hargvs args db off hi
    · rcases mem_feedRecs hi with heq | ⟨db', -, heq⟩ | heq
      · cases heq
      · cases heq
      · exact hplain args db off heq.symm
  · rw [replay, List.foldl_append, ← replay, Replay.settled_foldl_feed, hreplay, hexec]
  · -- neither an annotation nor a `SELECT` opens or ends a transaction
    rw [replay, List.foldl_append, ← replay, foldl_feed_isSome, hqueue, ← hinside]
    unfold feedRecs
    split <;> split <;> rfl

theorem FedText.feed (h : FedText lk dbnum d inside sv st) (hdbnum : dbnum ≤ 2 ^ 31) {dictid : Option Nat}
    {argv : List Robj} (hok : Feeds lk dbnum dictid argv) :
    FedText lk dbnum d inside (feedText dictid argv sv) (directly st dictid argv) := by
  -- the database is the one the command is executed on
  have hdirect : (if selectNeeded sv dictid then dictid.getD 0 else st.1) = dictid.getD st.1 ∧
      ∀ db ∈ (feedText dictid argv sv).aofSelectedDb, db = dictid.getD st.1 := by
    rw [feedText]
    dsimp only
    cases hneeded : selectNeeded sv dictid with
    | true =>
        cases dictid with
        | none => cases hneeded
        | some db => exact ⟨rfl, fun db' hdb' => (Option.some.inj hdb').symm⟩
    | false =>
        have hdb : dictid.getD st.1 = st.1 := by
          rcases selectNeeded_false hneeded with rfl | heq
          · rfl
          · cases dictid with
            | none => rfl
            | some db => exact h.selected db heq.symm
        rw [hdb]
        exact ⟨rfl, h.selected⟩
  refine h.append (.command _ 0 0) hok.fits hok.known ?_ nofun hdbnum hok.db ?_ rfl hdirect.2
  · rintro args db off heq
    obtain ⟨rfl, -, -⟩ := Rec.command.inj heq
    exact hok.plain
  · rw [foldl_feedRecs fun _ => rfl, directly, ← hdirect.1]
    split <;> rfl

/-- `MULTI` and `EXEC` go without a database. -/
theorem FedText.bracket (h : FedText lk dbnum d inside sv st) (hdbnum : dbnum ≤ 2 ^ 31) {name : String}
    {r : Rec (List Bytes) δ} (hr : PrintsRec r (.command [bytes name])) (hname : (bytes name).length < 2 ^ 31)
    (hknown : lk.known [bytes name] = true) (hbracket : r = .multi ∨ r = .exec)
    (hinside : nextInside inside r = inside') :
    FedText lk dbnum d inside' (feedText none [.sds (bytes name)] sv) st := by
  refine h.append hr (fits_name hname) hknown ?_ ?_ hdbnum nofun ?_ hinside h.selected
  · rcases hbracket with rfl | rfl <;> nofun
  · rcases hbracket with rfl | rfl <;> nofun
  · have hneeded : selectNeeded sv none = false := rfl
    rw [foldl_feedRecs fun _ => rfl, hneeded, if_neg Bool.false_ne_true]
    rcases hbracket with rfl | rfl <;> rfl

theorem FedText.feeds (h : FedText lk dbnum d inside sv st) (hdbnum : dbnum ≤ 2 ^ 31)
    {ops : List (Option Nat × List Robj)} (hok : ∀ op ∈ ops, Feeds lk dbnum op.1 op.2) :
    FedText lk dbnum d inside (ops.foldl (fun sv op => feedText op.1 op.2 sv) sv)
      (ops.foldl (fun st op => directly st op.1 op.2) st) := by
  induction ops generalizing sv st with
  | nil => exact h
  | cons op ops ih =>
      exact ih (h.feed hdbnum (hok op List.mem_cons_self)) fun op' hi => hok op' (List.mem_cons_of_mem op hi)

theorem FedText.step (h : FedText lk dbnum d false sv st) (hdbnum : dbnum ≤ 2 ^ 31) {op : FeedOp}
    (hok : op.Ok lk dbnum) : FedText lk dbnum d false (FeedOp.step sv op) (FeedOp.direct st op) := by
  cases op with
  | clock unixtime => exact ⟨h.on, hok, h.buf, h.selected⟩
  | timestamps enabled => exact ⟨h.on, h.time, h.buf, h.selected⟩
  | feed dictid argv => exact h.feed hdbnum hok
  | transaction ops =>
      have hmulti := h.bracket hdbnum .multi (by decide) lk.multi (.inl rfl) rfl
      exact (hmulti.feeds hdbnum hok).bracket hdbnum .exec (by decide) lk.exec (.inr rfl) rfl

theorem FedText.run (h : FedText lk dbnum d false sv st) (hdbnum : dbnum ≤ 2 ^ 31) {ops : List FeedOp}
    (hok : ∀ op ∈ ops, op.Ok lk dbnum) :
    FedText lk dbnum d false (ops.foldl FeedOp.step sv) (ops.foldl FeedOp.direct st) := by
  induction ops generalizing sv st with
  | nil => exact h
  | cons op ops ih =>
      exact ih (h.step hdbnum (hok op List.mem_cons_self)) fun op' hi => hok op' (List.mem_cons_of_mem op hi)

/-- **What was fed.** Loading what any calls of `feedAppendOnlyFile` have appended to an empty buffer executes the
commands in their order, each of them on its database. -/
theorem replay_fed {ops : List FeedOp} (hon : feedAppends sv = true) (hbuf : sv.aofBuf = [])
    (hsel : sv.aofSelectedDb = none) (htime : -2 ^ 63 ≤ sv.unixtime ∧ sv.unixtime < 2 ^ 63) (hdbnum : dbnum ≤ 2 ^ 31)
    (hok : ∀ op ∈ ops, op.Ok lk dbnum) (d : δ) :
    let loaded := loadCommands lk.known 0 (ops.foldl FeedOp.step sv).aofBuf
    loaded.2 = .eof ∧ replay (loaded.1.filterMap (recOf dbnum ·.1)) d =
      ⟨(ops.foldl FeedOp.direct (0, d)).1, (ops.foldl FeedOp.direct (0, d)).2, none⟩ := by
  have hinit : FedText lk dbnum d false sv (0, d) :=
    ⟨hon, htime, ⟨[], [], .nil, hbuf, nofun, nofun, nofun, nofun, rfl, rfl⟩, by simp [hsel]⟩
  obtain ⟨items, rs, hprints, hbuf, hitems, hlookup, hdbs, hargvs, hreplay, hqueue⟩ := (hinit.run hdbnum hok).buf
  rw [Option.isSome_eq_false_iff, Option.isNone_iff_eq_none] at hqueue
  rw [Replay.settled_of_queue hqueue] at hreplay
  dsimp only
  rw [hbuf, loadCommands_fileText hitems hlookup]
  refine ⟨rfl, ?_⟩
  rw [replay_prints hprints hdbnum hdbs hargvs, hreplay]
  rfl

end Replaying

/-! ### Two commands

The dataset records the commands executed. -/

instance : Commands (List Bytes) (List (Nat × List Bytes)) where
  empty := []
  apply db argv d := d ++ [(db, argv)]

def textStart : StartConf (List (Nat × List Bytes)) where
  conf := (defaultStart true).conf
  pid := 1
  aofEnabled := true
  aofLoadTruncated := true
  aofFsync := .everysec
  aofNoFsyncOnRewrite := false
  aofRewritePerc := 100
  aofRewriteMinSize := 64 * 1024 * 1024
  aofTimestampEnabled := true
  feedsReplicas := false
  mstime := 0
  replOffset := 0
  rdb := []

/-- A server that has just started. -/
def textServer : Server UInt8 (List Bytes) (List (Nat × List Bytes)) := initServer textStart

/-- A transaction on two databases. -/
theorem replay_fed_two :
    let loaded := loadCommands knowsAll.known 0
      ([.feed (some 3) [.sds [71], .sds [97]], .clock 9,
        .transaction [(some 3, [.sds [72]]), (some 0, [.sds [73]])]].foldl FeedOp.step textServer).aofBuf
    loaded.2 = .eof ∧ replay (loaded.1.filterMap (recOf 16 ·.1)) ([] : List (Nat × List Bytes)) =
      ⟨0, [(3, [[71], [97]]), (3, [[72]]), (0, [[73]])], none⟩ := by
  have hplain : plain [[71], [97]] ∧ plain [[72]] ∧ plain [[73]] := by decide +kernel
  have hfeeds : ∀ {dictid : Option Nat} {argv : List Robj}, Fits (argv.map getDecodedObject) →
      plain (argv.map getDecodedObject) → (∀ db ∈ dictid, db < 16) → Feeds knowsAll 16 dictid argv :=
    fun hfits hplain hdb => ⟨hfits, rfl, hplain, hdb⟩
  have hok : ∀ op ∈ [FeedOp.feed (some 3) [.sds [71], .sds [97]], .clock 9,
      .transaction [(some 3, [.sds [72]]), (some 0, [.sds [73]])]], op.Ok knowsAll 16 := by
    simp only [List.mem_cons, List.not_mem_nil, or_false]
    rintro op (rfl | rfl | rfl)
    · exact hfeeds (by decide) hplain.1 (by simp)
    · exact ⟨by decide, by decide⟩
    · simp only [FeedOp.Ok, List.mem_cons, List.not_mem_nil, or_false]
      rintro op (rfl | rfl)
      · exact hfeeds (by decide) hplain.2.1 (by simp)
      · exact hfeeds (by decide) hplain.2.2 (by simp)
  exact @replay_fed (List (Nat × List Bytes)) 16 _ knowsAll textServer _ rfl rfl rfl (by decide) (by decide) hok []

end WasiPorts.Redis.Aof
