import WasiPorts.Redis.Aof.Protocol

/-!
# Files of bytes as AOF files

The byte-level loader as an `AofFormat`. A unit is a byte; the first byte of a command carries the database and the
offset that are not in the file, and an RDB preamble is its signature, whose first byte carries the dataset. There is
no bound on the number of databases.

* `recordReader` — records, read by `readCommand`.
* `text_prints`, `text_torn` — a record that was printed is read back; one that was cut is not.
* The instance of `AofFormat`: what is proved of the AOF is proved of files of bytes.
-/

namespace WasiPorts.Redis.Aof

open WasiPorts.Text WasiPorts.Stream

/-! ## Commands -/

/-- The name of the command; upper and lower case are the same. -/
def isNamed (argv : List Bytes) (name : String) : Bool := argv.head?.any (sameIgnoringCase · (bytes name))

/-- `lookupCommand` of the loader, which knows the commands that the server makes up. -/
structure LookupCommand where
  known : List Bytes → Bool
  select : ∀ id, known [bytes "SELECT", id] = true
  multi : known [bytes "MULTI"] = true
  exec : known [bytes "EXEC"] = true

/-- A loader that knows every command. -/
def knowsAll : LookupCommand := ⟨fun _ => true, fun _ => rfl, rfl, rfl⟩

instance {argv : List Bytes} : Decidable (Fits argv) := decidable_of_iff _ fits_iff.symm

/-- A command that the loader knows and for whose arguments there is memory. -/
def LookupCommand.loads (lk : LookupCommand) (argv : List Bytes) : Bool := decide (Fits argv) && lk.known argv

/-- The database that `selectCommand` selects; any other `SELECT` is answered with an error. -/
def selectDb (argv : List Bytes) : Option Nat :=
  if isNamed argv "select" then
    match argv[1]?.bind string2ll with
    | some id => if 0 ≤ id then some id.toNat else none
    | none => none
  else none

/-- A command that is executed on the dataset. -/
structure Ordinary (lk : LookupCommand) (argv : List Bytes) : Prop where
  loads : lk.loads argv = true
  select : selectDb argv = none
  multi : isNamed argv "multi" = false
  exec : isNamed argv "exec" = false

theorem ordinary_iff {lk : LookupCommand} {argv : List Bytes} :
    Ordinary lk argv ↔ lk.loads argv = true ∧ selectDb argv = none ∧ isNamed argv "multi" = false ∧
      isNamed argv "exec" = false :=
  ⟨fun h => ⟨h.1, h.2, h.3, h.4⟩, fun h => ⟨h.1, h.2.1, h.2.2.1, h.2.2.2⟩⟩

instance {lk : LookupCommand} {argv : List Bytes} : Decidable (Ordinary lk argv) :=
  decidable_of_iff _ ordinary_iff.symm

abbrev TextCommand (lk : LookupCommand) : Type := { argv : List Bytes // Ordinary lk argv }

/-! ## Units -/

/-- What is not in the file. A database whose number `string2ll` cannot hold is not either. -/
inductive Tag (δ : Type) where
  | command (db off : Nat)
  | database (db : Nat)
  | preamble (d : δ) (upto : Nat)
  deriving DecidableEq, Repr

/-- A byte of the file. -/
structure Cell (lk : LookupCommand) (δ : Type) where
  byte : UInt8
  tag : Option (Tag δ)
  deriving DecidableEq

variable {lk : LookupCommand} {δ : Type}

instance : Inhabited (Cell lk δ) := ⟨⟨0, none⟩⟩

/-- The bytes `xs`, the first one with `tag`. -/
def cells (tag : Option (Tag δ)) : Bytes → List (Cell lk δ)
  | [] => []
  | b :: xs => ⟨b, tag⟩ :: xs.map (⟨·, none⟩)

def fileBytes (xs : List (Cell lk δ)) : Bytes := xs.map Cell.byte

/-- What is printed of a record at the time `unixtime`. -/
def text (unixtime : Int) : Rec (TextCommand lk) δ → List (Cell lk δ)
  | .timestamp => cells none (Item.timestamp unixtime).text
  | .select db =>
    cells (if db < 2 ^ 63 then none else some (.database db))
      (commandText [bytes "SELECT", decimal (db % 2 ^ 63 : Nat)])
  | .command argv db off => cells (some (.command db off)) (commandText argv.1)
  | .multi => cells none (commandText [bytes "MULTI"])
  | .exec => cells none (commandText [bytes "EXEC"])
  | .base d upto => cells (some (.preamble d upto)) (bytes "REDIS")

/-- What a command in the file does; the tag is that of its first byte. -/
def commandOf (tag : Option (Tag δ)) (argv : List Bytes) : Option (Rec (TextCommand lk) δ) :=
  match selectDb argv with
  | some db =>
    match tag with
    | some (.database db) => some (.select db)
    | _ => some (.select db)
  | none =>
    if isNamed argv "multi" then some .multi
    else if isNamed argv "exec" then some .exec
    else if h : Ordinary lk argv then
      match tag with
      | some (.command db off) => some (.command ⟨argv, h⟩ db off)
      | _ => some (.command ⟨argv, h⟩ 0 0)
    else none

/-- One round of the loop of `loadSingleAppendOnlyFile`. -/
def readRecord (xs : List (Cell lk δ)) : Except Tail (Rec (TextCommand lk) δ × Nat) :=
  match readCommand lk.loads (fileBytes xs) with
  | .error tail => .error tail
  | .ok (argv, k) =>
    match argv.elim (some .timestamp) (commandOf (xs.head?.bind Cell.tag)) with
    | some r => .ok (r, k)
    | none => .error .bad

/-! ## Reading -/

section Reading

theorem fileBytes_cells (tag : Option (Tag δ)) (xs : Bytes) : fileBytes (cells tag xs : List (Cell lk δ)) = xs := by
  cases xs with
  | nil => rfl
  | cons b xs => simp [fileBytes, cells, Function.comp_def]

theorem length_cells (tag : Option (Tag δ)) (xs : Bytes) : (cells tag xs : List (Cell lk δ)).length = xs.length := by
  cases xs with
  | nil => rfl
  | cons b xs => simp [cells]

theorem fileBytes_append (xs ys : List (Cell lk δ)) : fileBytes (xs ++ ys) = fileBytes xs ++ fileBytes ys :=
  List.map_append

theorem fileBytes_take (xs : List (Cell lk δ)) (n : Nat) : fileBytes (xs.take n) = (fileBytes xs).take n :=
  List.map_take

/-- The first byte is among those of an item. -/
theorem head_take {xs : List (Cell lk δ)} {k : Nat} (hpos : 0 < k) (hle : k ≤ xs.length) (ys : List (Cell lk δ)) :
    (xs.take k ++ ys).head? = xs.head? := by
  obtain ⟨k, rfl⟩ := Nat.exists_eq_add_one.mpr hpos
  cases xs with
  | nil => exact absurd hle (by simp)
  | cons x xs => rfl

theorem readRecord_ok_iff {xs : List (Cell lk δ)} {r : Rec (TextCommand lk) δ} {k : Nat} :
    readRecord xs = .ok (r, k) ↔ ∃ argv, readCommand lk.loads (fileBytes xs) = .ok (argv, k) ∧
      argv.elim (some .timestamp) (commandOf (xs.head?.bind Cell.tag)) = some r := by
  unfold readRecord
  constructor
  · intro h
    split at h
    · cases h
    · next argv k' hread =>
        split at h
        · next r' hrec =>
            obtain ⟨rfl, rfl⟩ := Prod.mk.inj (Except.ok.inj h)
            exact ⟨argv, hread, hrec⟩
        · cases h
  · rintro ⟨argv, hread, hrec⟩
    rw [hread]
    dsimp only
    rw [hrec]

/-- The loop of `loadSingleAppendOnlyFile` as a reader of records. -/
def recordReader (lk : LookupCommand) (δ : Type) : Reader (Cell lk δ) (Rec (TextCommand lk) δ) Tail where
  read := readRecord
  eof := .eof
  read_nil := rfl
  eq_nil := by
    intro xs h
    unfold readRecord at h
    split at h
    · next tail htail =>
        obtain rfl := Except.error.inj h
        exact List.map_eq_nil_iff.mp (readCommand_eof htail)
    · split at h <;> cases h
  pos := by
    intro xs r k h
    obtain ⟨argv, hread, -⟩ := readRecord_ok_iff.mp h
    exact (commandReader lk.loads).pos hread
  le := by
    intro xs r k h
    obtain ⟨argv, hread, -⟩ := readRecord_ok_iff.mp h
    exact ((commandReader lk.loads).le hread).trans_eq (List.length_map _)
  read_take := by
    intro xs r k h ys
    obtain ⟨argv, hread, hrec⟩ := readRecord_ok_iff.mp h
    have hle : k ≤ xs.length := ((commandReader lk.loads).le hread).trans_eq (List.length_map _)
    refine readRecord_ok_iff.mpr ⟨argv, ?_, ?_⟩
    · rw [fileBytes_append, fileBytes_take]
      exact (commandReader lk.loads).read_take hread _
    · rw [head_take ((commandReader lk.loads).pos hread) hle, hrec]

end Reading

/-! ## Reading what was printed -/

section Printed

theorem head_cells {tag : Option (Tag δ)} {xs : Bytes} (h : xs ≠ []) (ys : List (Cell lk δ)) :
    (cells tag xs ++ ys).head?.bind Cell.tag = tag := by
  cases xs with
  | nil => exact absurd rfl h
  | cons b xs => rfl

theorem loads_iff {argv : List Bytes} : lk.loads argv = true ↔ Fits argv ∧ lk.known argv = true := by
  simp [LookupCommand.loads]

theorem loads_select (db : Nat) : lk.loads [bytes "SELECT", decimal (db % 2 ^ 63 : Nat)] = true := by
  have hlen : (decimal (db % 2 ^ 63 : Nat)).length ≤ 20 := length_decimal_le (by omega) (by omega)
  have hname : (bytes "SELECT").length = 6 := rfl
  refine loads_iff.mpr ⟨⟨by simp, by simp, ?_⟩, lk.select _⟩
  intro s hs
  simp only [List.mem_cons, List.not_mem_nil, or_false] at hs
  rcases hs with rfl | rfl <;> omega

theorem fits_name {name : String} (h : (bytes name).length < 2 ^ 31) : Fits [bytes name] :=
  ⟨by simp, by simp, by simpa using h⟩

/-- A command with its tag. -/
theorem prints_command {tag : Option (Tag δ)} {argv : List Bytes} {r : Rec (TextCommand lk) δ}
    (hloads : lk.loads argv = true) (hrec : commandOf tag argv = some r) (ys : List (Cell lk δ)) :
    readRecord (cells tag (commandText argv) ++ ys) =
      .ok (r, (cells tag (commandText argv) : List (Cell lk δ)).length) := by
  have hfits := (loads_iff.mp hloads).1
  have hne : commandText argv ≠ [] := by simp [commandText, numberLine]
  refine readRecord_ok_iff.mpr ⟨some argv, ?_, ?_⟩
  · rw [fileBytes_append, fileBytes_cells, length_cells]
    exact readCommand_command hfits hloads _
  · rw [head_cells hne]
    exact hrec

theorem prints_timestamp {unixtime : Int} (h : (Item.timestamp unixtime).Fits) (ys : List (Cell lk δ)) :
    readRecord (cells none (Item.timestamp unixtime).text ++ ys) =
      .ok (.timestamp, (cells none (Item.timestamp unixtime).text : List (Cell lk δ)).length) := by
  refine readRecord_ok_iff.mpr ⟨none, ?_, rfl⟩
  rw [fileBytes_append, fileBytes_cells, length_cells]
  exact readCommand_timestamp h _

theorem selectDb_decimal (db : Nat) : selectDb [bytes "SELECT", decimal (db % 2 ^ 63 : Nat)] = some (db % 2 ^ 63) := by
  have hname : isNamed [bytes "SELECT", decimal (db % 2 ^ 63 : Nat)] "select" = true := rfl
  have hid : [bytes "SELECT", decimal (db % 2 ^ 63 : Nat)][1]?.bind string2ll = some ((db % 2 ^ 63 : Nat) : Int) :=
    (string2ll_eq_some_iff _ _).mpr ⟨rfl, by omega, by omega⟩
  rw [selectDb, if_pos hname, hid]
  dsimp only
  rw [if_pos (by omega), Int.toNat_natCast]

theorem commandOf_select (db : Nat) :
    commandOf (if db < 2 ^ 63 then none else some (.database db))
      [bytes "SELECT", decimal (db % 2 ^ 63 : Nat)] = some (.select db : Rec (TextCommand lk) δ) := by
  rw [commandOf, selectDb_decimal]
  dsimp only
  by_cases hlt : db < 2 ^ 63
  · rw [if_pos hlt, Nat.mod_eq_of_lt hlt]
  · rw [if_neg hlt]

theorem commandOf_command (argv : TextCommand lk) (db off : Nat) :
    commandOf (some (.command db off)) argv.1 = some (.command argv db off : Rec (TextCommand lk) δ) := by
  obtain ⟨argv, h⟩ := argv
  rw [commandOf, h.select]
  dsimp only
  rw [if_neg (by simp [h.multi]), if_neg (by simp [h.exec]), dif_pos h]

/-- **A record that was printed** is read back. -/
theorem text_prints {unixtime : Int} (htime : (Item.timestamp unixtime).Fits) {r : Rec (TextCommand lk) δ}
    (hbase : ∀ d u, r ≠ .base d u) (ys : List (Cell lk δ)) :
    readRecord (text unixtime r ++ ys) = .ok (r, (text unixtime r).length) := by
  cases r with
  | timestamp => exact prints_timestamp htime ys
  | select db => exact prints_command (loads_select db) (commandOf_select db) ys
  | command argv db off => exact prints_command argv.2.loads (commandOf_command argv db off) ys
  | multi => exact prints_command (loads_iff.mpr ⟨fits_name (by decide), lk.multi⟩) rfl ys
  | exec => exact prints_command (loads_iff.mpr ⟨fits_name (by decide), lk.exec⟩) rfl ys
  | base d u => exact absurd rfl (hbase d u)

/-- What reading a record that was cut is answered with. -/
def tornTail : Rec (TextCommand lk) δ → Tail
  | .timestamp => .torn
  | _ => .short

theorem torn_command {tag : Option (Tag δ)} {argv : List Bytes} (hloads : lk.loads argv = true) {n : Nat} (hpos : 0 < n)
    (hn : n < (cells tag (commandText argv) : List (Cell lk δ)).length) :
    readRecord ((cells tag (commandText argv) : List (Cell lk δ)).take n) = .error .short := by
  rw [length_cells] at hn
  rw [readRecord, fileBytes_take, fileBytes_cells, readCommand_torn_command (loads_iff.mp hloads).1 hpos hn]

/-- **A record that was cut** is not read. -/
theorem text_torn {unixtime : Int} (htime : (Item.timestamp unixtime).Fits) {r : Rec (TextCommand lk) δ}
    (hbase : ∀ d u, r ≠ .base d u) {n : Nat} (hpos : 0 < n) (hn : n < (text unixtime r).length) :
    readRecord ((text unixtime r).take n) = .error (tornTail r) := by
  cases r with
  | timestamp =>
      rw [text, length_cells] at hn
      rw [text, readRecord, fileBytes_take, fileBytes_cells, readCommand_torn_timestamp htime hpos hn]
      rfl
  | select db => exact torn_command (loads_select db) hpos hn
  | command argv db off => exact torn_command argv.2.loads hpos hn
  | multi => exact torn_command (loads_iff.mpr ⟨fits_name (by decide), lk.multi⟩) hpos hn
  | exec => exact torn_command (loads_iff.mpr ⟨fits_name (by decide), lk.exec⟩) hpos hn
  | base d u => exact absurd rfl (hbase d u)

end Printed

/-! ## Files -/

section Files

/-- What `loadSingleAppendOnlyFile` reads. The five cells of an RDB preamble stand for what `rdbLoadRio` loads. -/
def parseText (xs : List (Cell lk δ)) : List (Rec (TextCommand lk) δ × Nat) × Tail :=
  if fileBytes (xs.take 5) = bytes "REDIS" then
    match xs.head?.bind Cell.tag with
    | some (.preamble d upto) =>
      let rest := (recordReader lk δ).items 5 (xs.drop 5)
      ((.base d upto, 5) :: rest.1, rest.2)
    | _ => ([], .bad)
  else (recordReader lk δ).items 0 xs

/-- The file begins with an RDB preamble. -/
structure HasPreamble (xs : List (Cell lk δ)) (d : δ) (upto : Nat) : Prop where
  signature : fileBytes (xs.take 5) = bytes "REDIS"
  tag : xs.head?.bind Cell.tag = some (.preamble d upto)

theorem HasPreamble.parse {xs : List (Cell lk δ)} {d : δ} {upto : Nat} (h : HasPreamble xs d upto) :
    parseText xs =
      ((.base d upto, 5) :: ((recordReader lk δ).items 5 (xs.drop 5)).1,
        ((recordReader lk δ).items 5 (xs.drop 5)).2) := by
  rw [parseText, if_pos h.signature, h.tag]

theorem HasPreamble.length {xs : List (Cell lk δ)} {d : δ} {upto : Nat} (h : HasPreamble xs d upto) :
    5 ≤ xs.length := by
  have hlen := congrArg List.length h.signature
  have hbytes : (bytes "REDIS").length = 5 := rfl
  rw [hbytes, fileBytes, List.length_map, List.length_take] at hlen
  omega

/-- The other bytes do not matter. -/
theorem HasPreamble.of_take {xs ys : List (Cell lk δ)} {d : δ} {upto : Nat} (h : HasPreamble xs d upto)
    (htake : ys.take 5 = xs.take 5) : HasPreamble ys d upto := by
  refine ⟨by rw [htake, h.signature], ?_⟩
  have hhead : ys.head? = xs.head? := by
    have heq := congrArg List.head? htake
    rwa [List.head?_take, List.head?_take, if_neg (by omega), if_neg (by omega)] at heq
  rw [hhead, h.tag]

/-- A file has a preamble, is refused, or has none. -/
theorem parseText_cases (xs : List (Cell lk δ)) :
    (∃ d upto, HasPreamble xs d upto) ∨ parseText xs = ([], .bad) ∨ parseText xs = (recordReader lk δ).items 0 xs := by
  by_cases hsig : fileBytes (xs.take 5) = bytes "REDIS"
  · rw [parseText, if_pos hsig]
    split
    · next d upto htag => exact .inl ⟨d, upto, hsig, htag⟩
    · exact .inr (.inl rfl)
  · exact .inr (.inr (if_neg hsig))

/-- A signature is no command. -/
theorem items_signature {x : Cell lk δ} (hx : x.byte = 82) (xs : List (Cell lk δ)) (pos : Nat) :
    (recordReader lk δ).items pos (x :: xs) = ([], .bad) := by
  have hread : readCommand lk.loads (fileBytes (x :: xs)) = .error .bad := by
    obtain ⟨l, hl⟩ : ∃ l, fgets aofAnnotationLineMaxLen (fileBytes (x :: xs)) = some l := by
      refine Option.ne_none_iff_exists'.mp fun hnone => ?_
      cases fgets_none_iff.mp hnone
    have hhead : l.text.head? = some 82 := (fgets_head (by decide) hl).trans (congrArg some hx)
    rw [readCommand, hl]
    dsimp only
    rw [if_neg (by simp [hhead]), if_pos (by simp [hhead])]
  refine Reader.items_error pos ?_
  show readRecord (x :: xs) = _
  rw [readRecord, hread]

theorem head_text {unixtime : Int} {r : Rec (TextCommand lk) δ} (hbase : ∀ d u, r ≠ .base d u) :
    ∃ x xs, text unixtime r = x :: xs ∧ x.byte ≠ 82 := by
  cases r with
  | timestamp => exact ⟨_, _, rfl, by show (35 : UInt8) ≠ 82; decide⟩
  | select db => exact ⟨_, _, rfl, by simp⟩
  | command argv db off => exact ⟨_, _, rfl, by simp⟩
  | multi => exact ⟨_, _, rfl, by simp⟩
  | exec => exact ⟨_, _, rfl, by simp⟩
  | base d u => exact absurd rfl (hbase d u)

/-- Files that begin with a signature begin with its first byte. -/
theorem signature_head {x : Cell lk δ} {xs : List (Cell lk δ)} (h : fileBytes ((x :: xs).take 5) = bytes "REDIS") :
    x.byte = 82 := by
  have hbytes : bytes "REDIS" = [82, 69, 68, 73, 83] := rfl
  rw [hbytes] at h
  exact (List.cons.inj h).1

theorem parseText_of_head {xs : List (Cell lk δ)} (h : ∀ x ∈ xs.head?, x.byte ≠ 82) :
    parseText xs = (recordReader lk δ).items 0 xs := by
  refine if_neg fun hsig => ?_
  cases xs with
  | nil => cases hsig
  | cons x xs => exact h x rfl (signature_head hsig)

/-- Nothing is read of a file that begins like a signature and is none. -/
theorem parseText_eq_items {xs ys : List (Cell lk δ)} (h : ((recordReader lk δ).items 0 xs).2 = .eof)
    (hys : ∀ y ∈ ys.head?, y.byte ≠ 82) : parseText (xs ++ ys) = (recordReader lk δ).items 0 (xs ++ ys) := by
  refine parseText_of_head ?_
  cases xs with
  | nil => exact hys
  | cons x xs =>
      rintro y hy hbyte
      obtain rfl : x = y := Option.some.inj hy
      rw [items_signature hbyte xs 0] at h
      cases h

/-- One record. -/
theorem items_text {unixtime : Int} (htime : (Item.timestamp unixtime).Fits) {r : Rec (TextCommand lk) δ}
    (hbase : ∀ d u, r ≠ .base d u) (pos : Nat) :
    (recordReader lk δ).items pos (text unixtime r) = ([(r, pos + (text unixtime r).length)], .eof) := by
  have hread := text_prints htime hbase []
  rw [List.append_nil] at hread
  have hitems := @Reader.items_ok _ _ _ (recordReader lk δ) _ _ _ pos hread
  rw [List.drop_length] at hitems
  exact hitems

theorem parseText_append {unixtime : Int} (htime : (Item.timestamp unixtime).Fits) {xs : List (Cell lk δ)}
    {r : Rec (TextCommand lk) δ} (h : (parseText xs).2 = .eof) (hbase : ∀ d u, r ≠ .base d u) :
    parseText (xs ++ text unixtime r) =
      ((parseText xs).1 ++ [(r, xs.length + (text unixtime r).length)], .eof) := by
  rcases parseText_cases xs with ⟨d, upto, hpre⟩ | hbad | hitems
  · have hlen := hpre.length
    have hpre' : HasPreamble (xs ++ text unixtime r) d upto :=
      hpre.of_take (List.take_append_of_le_length hlen)
    have hshift : 5 + (xs.drop 5).length = xs.length := by
      rw [List.length_drop]
      omega
    rw [hpre.parse] at h ⊢
    rw [hpre'.parse, List.drop_append_of_le_length hlen, Reader.items_append h, hshift, items_text htime hbase]
    rfl
  · rw [hbad] at h
    cases h
  · obtain ⟨x, ys, htext, hx⟩ := @head_text _ _ unixtime r hbase
    rw [hitems] at h ⊢
    rw [parseText_eq_items h (by simp [htext, hx]), Reader.items_append h, Nat.zero_add, items_text htime hbase]

theorem parseText_take {xs : List (Cell lk δ)} {pre suf : List (Rec (TextCommand lk) δ × Nat)}
    {r : Rec (TextCommand lk) δ} {e : Nat} (h : (parseText xs).1 = pre ++ (r, e) :: suf) :
    parseText (xs.take e) = (pre ++ [(r, e)], .eof) := by
  rcases parseText_cases xs with ⟨d, upto, hpre⟩ | hbad | hitems
  · -- the cut is behind the preamble
    have hparse : ∀ {e}, 5 ≤ e → parseText (xs.take e) =
        ((.base d upto, 5) :: ((recordReader lk δ).items 5 ((xs.drop 5).take (e - 5))).1,
          ((recordReader lk δ).items 5 ((xs.drop 5).take (e - 5))).2) := by
      intro e he
      have htake : (xs.take e).take 5 = xs.take 5 := by rw [List.take_take, Nat.min_eq_left he]
      rw [(hpre.of_take htake).parse, List.drop_take]
    rw [hpre.parse] at h
    cases pre with
    | nil =>
        obtain ⟨hfirst, -⟩ := List.cons.inj h
        obtain ⟨rfl, rfl⟩ := Prod.mk.inj hfirst
        rw [hparse (Nat.le_refl 5), Nat.sub_self, List.take_zero, Reader.items_nil]
        rfl
    | cons p pre =>
        obtain ⟨rfl, hrest⟩ := List.cons.inj h
        obtain ⟨hlt, htake⟩ := Reader.items_take hrest
        rw [hparse (Nat.le_of_lt hlt), htake]
        rfl
  · rw [hbad] at h
    cases pre <;> cases h
  · rw [hitems] at h
    obtain ⟨-, htake⟩ := Reader.items_take h
    rw [Nat.sub_zero] at htake
    -- without a preamble, reading up to the cut is reading items
    have heof : ((recordReader lk δ).items 0 (xs.take e)).2 = .eof := by
      rw [htake]
      rfl
    have hparse := @parseText_eq_items _ _ (xs.take e) [] heof (by simp)
    rw [List.append_nil] at hparse
    rw [hparse, htake]
    rfl

/-- Files of bytes. The timestamps have no meaning. -/
instance : AofFormat (Cell lk δ) (TextCommand lk) δ where
  enc := text 0
  parse := parseText
  enc_ne_nil := by
    intro r hnil
    by_cases hbase : ∃ d u, r = .base d u
    · obtain ⟨d, u, rfl⟩ := hbase
      cases hnil
    · obtain ⟨x, xs, htext, -⟩ := @head_text _ _ 0 r fun d u heq => hbase ⟨d, u, heq⟩
      rw [htext] at hnil
      cases hnil
  parse_nil := rfl
  parse_base _ _ := rfl
  parse_append _ _ h hbase := parseText_append (by simp [Item.Fits]) h hbase
  parse_take _ _ _ _ _ h := parseText_take h

end Files

end WasiPorts.Redis.Aof
