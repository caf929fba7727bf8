import WasiPorts.Redis.Aof.Protocol

/-!
# The text of a rewritten AOF

`rewriteAppendOnlyFileRio` prints commands that rebuild the dataset. Collections are printed in pieces, each with
a count that is computed before its elements are known.

* `rewriteItems_eq` — the counts are right.
* `rewriteAppendOnlyFileRio_eq` — what is printed is the text of complete commands.

Streams and the types of modules are left out, as are errors of the output.
-/

namespace WasiPorts.Redis.Aof

open WasiPorts.Text

/-! ## Objects -/

/-- An element of a collection: bytes, or an integer of a listpack or an intset. -/
inductive Elem where
  | str (s : Bytes)
  | int (n : Int64)
  deriving DecidableEq

namespace Elem

/-- The element as a string. -/
def bytes : Elem → Bytes
  | str s => s
  | int n => decimal n.toInt

end Elem

/-- `EB_EXPIRE_TIME_INVALID`. -/
def ebExpireTimeInvalid : Nat := 2 ^ 48

/-- A field of a hash as the iterator gives it. -/
structure HashField where
  field : Elem
  value : Elem
  expireTime : Nat
  deriving DecidableEq

/-- An object, as the iterators of its type give its elements. A hash has its minimal expire time, as
`hashTypeGetMinExpire(o, 0)` gives it: it stays when the fields lose theirs. -/
inductive Obj (Score : Type) where
  | string (o : Robj)
  | list (es : List Elem)
  | set (es : List Elem)
  | zset (es : List (Elem × Score))
  | hash (minExpire : Nat) (fs : List HashField)

/-- A key. The expire time is -1 if there is none. -/
structure Key (Score : Type) where
  keystr : Bytes
  o : Obj Score
  expiretime : Int

/-- The text of scores; the options of `ZADD` are not texts of scores. -/
class ScoreFormat (Score : Type) where
  fpconvDtoa : Score → Bytes
  getDouble : Bytes → Option Score
  getDouble_dtoa : ∀ score, getDouble (fpconvDtoa score) = some score
  dtoa_length : ∀ score, (fpconvDtoa score).length < 128
  dtoa_no_option : ∀ score, ∀ opt ∈ ["nx", "xx", "ch", "incr", "gt", "lt"],
    sameIgnoringCase (fpconvDtoa score) (bytes opt) = false

/-! ## Printing -/

/-- `AOF_REWRITE_ITEMS_PER_CMD`. -/
def aofRewriteItemsPerCmd : Nat := 64

/-- `rioWriteBulkString` or `rioWriteBulkLongLong`, whichever the element is. -/
def rioWriteElem : Elem → Bytes
  | .str s => rioWriteBulkString s
  | .int n => rioWriteBulkLongLong n.toInt

/-- The loop over the elements of a collection: `count` of them have been printed since the last command was
started, and `items` are left. -/
def rewriteItems {α : Type} (name : Bytes) (key : Robj) (perItem : Nat) (write : α → Bytes) :
    Nat → Nat → List α → Bytes
  | _, _, [] => []
  | count, items, x :: xs =>
    (if count = 0 then
      let cmdItems := if items > aofRewriteItemsPerCmd then aofRewriteItemsPerCmd else items
      rioWriteBulkCount 42 (2 + cmdItems * perItem : Nat) ++ rioWriteBulkString name ++ rioWriteBulkObject key
    else []) ++ write x ++
      rewriteItems name key perItem write (if count + 1 = aofRewriteItemsPerCmd then 0 else count + 1) (items - 1) xs

/-- `rewriteListObject`. -/
def rewriteListObject (key : Robj) (es : List Elem) : Bytes :=
  rewriteItems (bytes "RPUSH") key 1 rioWriteElem 0 es.length es

/-- `rewriteSetObject`. -/
def rewriteSetObject (key : Robj) (es : List Elem) : Bytes :=
  rewriteItems (bytes "SADD") key 1 rioWriteElem 0 es.length es

/-- `rewriteHashObject`. In a hash without an expire time, the fields are printed in pieces. -/
def rewriteHashObject (key : Robj) (minExpire : Nat) (fs : List HashField) : Bytes :=
  if minExpire = ebExpireTimeInvalid then
    rewriteItems (bytes "HMSET") key 2 (fun f => rioWriteElem f.field ++ rioWriteElem f.value) 0 fs.length fs
  else
    fs.flatMap fun f =>
      bytes "*4\r\n$5\r\nHMSET\r\n" ++ rioWriteBulkObject key ++ rioWriteElem f.field ++ rioWriteElem f.value ++
        if f.expireTime ≠ ebExpireTimeInvalid then
          bytes "*6\r\n$10\r\nHPEXPIREAT\r\n" ++ rioWriteBulkObject key ++ rioWriteBulkLongLong f.expireTime ++
            rioWriteBulkString (bytes "FIELDS") ++ rioWriteBulkString (bytes "1") ++ rioWriteElem f.field
        else []

/-- `rewriteFunctions`: the code of the libraries. -/
def rewriteFunctions (functions : List Bytes) : Bytes :=
  functions.flatMap fun code =>
    bytes "*3\r\n" ++ bytes "$8\r\nFUNCTION\r\n$4\r\nLOAD\r\n" ++ rioWriteBulkString code

section Scores

variable {Score : Type} [ScoreFormat Score]

/-- `rioWriteBulkDouble`. -/
def rioWriteBulkDouble (score : Score) : Bytes := rioWriteBulkString (ScoreFormat.fpconvDtoa score)

/-- `rewriteSortedSetObject`. -/
def rewriteSortedSetObject (key : Robj) (es : List (Elem × Score)) : Bytes :=
  rewriteItems (bytes "ZADD") key 2 (fun e => rioWriteBulkDouble e.2 ++ rioWriteElem e.1) 0 es.length es

/-- One round of the loop over the keys of a database. -/
def rewriteKey (k : Key Score) : Bytes :=
  let key := Robj.sds k.keystr
  (match k.o with
    | .string o => bytes "*3\r\n$3\r\nSET\r\n" ++ rioWriteBulkObject key ++ rioWriteBulkObject o
    | .list es => rewriteListObject key es
    | .set es => rewriteSetObject key es
    | .zset es => rewriteSortedSetObject key es
    | .hash minExpire fs => rewriteHashObject key minExpire fs) ++
    if k.expiretime ≠ -1 then
      bytes "*3\r\n$9\r\nPEXPIREAT\r\n" ++ rioWriteBulkObject key ++ rioWriteBulkLongLong k.expiretime
    else []

/-- The databases from number `j` on. -/
def rewriteDbs (j : Nat) : List (List (Key Score)) → Bytes
  | [] => []
  | keys :: dbs =>
    (if keys = [] then []
      else bytes "*2\r\n$6\r\nSELECT\r\n" ++ rioWriteBulkLongLong j ++ keys.flatMap rewriteKey) ++
      rewriteDbs (j + 1) dbs

/-- `rewriteAppendOnlyFileRio`, with the time if `aof-timestamp-enabled` is set. -/
def rewriteAppendOnlyFileRio (timestamp : Option Int) (functions : List Bytes) (dbs : List (List (Key Score))) :
    Bytes :=
  (match timestamp with
    | some now => bytes "#TS:" ++ decimal now ++ crlf
    | none => []) ++ rewriteFunctions functions ++ rewriteDbs 0 dbs

end Scores

/-! ## Pieces of a list -/

section Pieces

variable {α β : Type}

/-- The list in pieces of `n + 1` elements; the last one may be shorter. -/
def pieces (n : Nat) (xs : List α) : List (List α) :=
  match xs with
  | [] => []
  | x :: xs => (x :: xs.take n) :: pieces n (xs.drop n)
termination_by xs.length
decreasing_by simp

theorem pieces_flatten (n : Nat) (xs : List α) : (pieces n xs).flatten = xs := by
  induction xs using pieces.induct n with
  | case1 => rw [pieces, List.flatten_nil]
  | case2 x xs ih => rw [pieces, List.flatten_cons, ih, List.cons_append, List.take_append_drop]

theorem ne_nil_of_mem_pieces {n : Nat} {xs piece : List α} (h : piece ∈ pieces n xs) : piece ≠ [] := by
  induction xs using pieces.induct n with
  | case1 =>
      rw [pieces] at h
      cases h
  | case2 x xs ih =>
      rw [pieces] at h
      rcases List.mem_cons.mp h with rfl | h
      · exact List.cons_ne_nil _ _
      · exact ih h

theorem length_le_of_mem_pieces {n : Nat} {xs piece : List α} (h : piece ∈ pieces n xs) : piece.length ≤ n + 1 := by
  induction xs using pieces.induct n with
  | case1 =>
      rw [pieces] at h
      cases h
  | case2 x xs ih =>
      rw [pieces] at h
      rcases List.mem_cons.mp h with rfl | h
      · rw [List.length_cons, List.length_take]
        omega
      · exact ih h

theorem mem_of_mem_pieces {n : Nat} {xs piece : List α} (h : piece ∈ pieces n xs) {x : α} (hx : x ∈ piece) :
    x ∈ xs := by
  rw [← pieces_flatten n xs]
  exact List.mem_flatten.mpr ⟨piece, h, hx⟩

/-- Adding the pieces one after another is adding the list. -/
theorem foldl_pieces {f : β → List α → β} (hf : ∀ b xs ys, xs ≠ [] → ys ≠ [] → f (f b xs) ys = f b (xs ++ ys)) (n : Nat)
    {xs : List α} (hne : xs ≠ []) (b : β) : (pieces n xs).foldl f b = f b xs := by
  have happend : ∀ (piece : List α) (rest : List (List α)), piece ≠ [] → (∀ p ∈ rest, p ≠ []) →
      rest.foldl f (f b piece) = f b (piece ++ rest.flatten) := by
    intro piece rest
    induction rest generalizing piece with
    | nil => simp
    | cons p rest ih =>
        intro hpiece hrest
        have hp := hrest p List.mem_cons_self
        rw [List.foldl_cons, hf b piece p hpiece hp, ih (piece ++ p) (by simp [hp]) fun q hq => hrest q (by simp [hq])]
        simp
  cases xs with
  | nil => exact absurd rfl hne
  | cons x xs =>
      have hflat := pieces_flatten n (x :: xs)
      have hmem : ∀ p ∈ pieces n (x :: xs), p ≠ [] := fun p hp => ne_nil_of_mem_pieces hp
      rw [@pieces.eq_def α] at hflat hmem ⊢
      rw [List.foldl_cons, happend _ _ (by simp) fun p hp => hmem p (List.mem_cons_of_mem _ hp)]
      rw [List.flatten_cons] at hflat
      rw [hflat]

end Pieces

/-! ## The commands that are printed -/

section Commands

variable {Score : Type} [ScoreFormat Score] {α : Type}

/-- The commands for a collection. -/
def itemCommands (name key : Bytes) (args : α → List Bytes) (xs : List α) : List (List Bytes) :=
  (pieces (aofRewriteItemsPerCmd - 1) xs).map fun piece => name :: key :: piece.flatMap args

def HashField.args (f : HashField) : List Bytes := [f.field.bytes, f.value.bytes]

def scoreArgs (e : Elem × Score) : List Bytes := [ScoreFormat.fpconvDtoa e.2, e.1.bytes]

def hashCommands (key : Bytes) (minExpire : Nat) (fs : List HashField) : List (List Bytes) :=
  if minExpire = ebExpireTimeInvalid then itemCommands (bytes "HMSET") key HashField.args fs
  else
    fs.flatMap fun f =>
      [bytes "HMSET", key, f.field.bytes, f.value.bytes] ::
        if f.expireTime ≠ ebExpireTimeInvalid then
          [[bytes "HPEXPIREAT", key, decimal f.expireTime, bytes "FIELDS", bytes "1", f.field.bytes]]
        else []

def objCommands (key : Bytes) : Obj Score → List (List Bytes)
  | .string o => [[bytes "SET", key, getDecodedObject o]]
  | .list es => itemCommands (bytes "RPUSH") key (fun e => [e.bytes]) es
  | .set es => itemCommands (bytes "SADD") key (fun e => [e.bytes]) es
  | .zset es => itemCommands (bytes "ZADD") key scoreArgs es
  | .hash minExpire fs => hashCommands key minExpire fs

def keyCommands (k : Key Score) : List (List Bytes) :=
  objCommands k.keystr k.o ++
    if k.expiretime ≠ -1 then [[bytes "PEXPIREAT", k.keystr, decimal k.expiretime]] else []

def dbCommands (j : Nat) : List (List (Key Score)) → List (List Bytes)
  | [] => []
  | keys :: dbs =>
    (if keys = [] then [] else [bytes "SELECT", decimal j] :: keys.flatMap keyCommands) ++ dbCommands (j + 1) dbs

def functionCommands (functions : List Bytes) : List (List Bytes) :=
  functions.map fun code => [bytes "FUNCTION", bytes "LOAD", code]

/-- The items of a rewritten file. -/
def rewriteFile (timestamp : Option Int) (functions : List Bytes) (dbs : List (List (Key Score))) : List Item :=
  timestamp.toList.map .timestamp ++ (functionCommands functions ++ dbCommands 0 dbs).map .command

/-! ### Sizes -/

def Elem.Short (e : Elem) : Prop := e.bytes.length < 2 ^ 31

/-- The strings are no longer than a `long` can say, and there are no empty collections. A field expires at a time
that `HPEXPIREAT` takes: up to `HFE_MAX_ABS_TIME_MSEC`; its hash has an expire time, too. -/
def Obj.Valid : Obj Score → Prop
  | .string o => (getDecodedObject o).length < 2 ^ 31
  | .list es => es ≠ [] ∧ ∀ e ∈ es, e.Short
  | .set es => es ≠ [] ∧ ∀ e ∈ es, e.Short
  | .zset es => es ≠ [] ∧ ∀ e ∈ es, e.1.Short
  | .hash minExpire fs => fs ≠ [] ∧
      (minExpire = ebExpireTimeInvalid → ∀ f ∈ fs, f.expireTime = ebExpireTimeInvalid) ∧
      ∀ f ∈ fs, f.field.Short ∧ f.value.Short ∧ (f.expireTime = ebExpireTimeInvalid ∨ f.expireTime ≤ (2 ^ 48 - 1) / 4)

structure Key.Valid (k : Key Score) : Prop where
  keystr : k.keystr.length < 2 ^ 31
  o : k.o.Valid
  expire_low : -2 ^ 63 ≤ k.expiretime
  expire_high : k.expiretime < 2 ^ 63

theorem rioWriteElem_eq {e : Elem} (h : e.Short) : rioWriteElem e = bulk e.bytes := by
  cases e with
  | str s => exact rioWriteBulkString_eq h
  | int n => exact rioWriteBulkLongLong_eq n.le_toInt n.toInt_lt

theorem rioWriteBulkObject_sds {s : Bytes} (h : s.length < 2 ^ 31) : rioWriteBulkObject (.sds s) = bulk s :=
  rioWriteBulkString_eq h

/-! ### Collections -/

variable {name : Bytes} {key : Robj} {perItem : Nat} {write : α → Bytes}

/-- Inside a command, the elements up to its end are printed without another count. -/
theorem rewriteItems_inside {count : Nat} (hpos : 0 < count) (hlt : count < aofRewriteItemsPerCmd) (items : Nat)
    (xs : List α) :
    rewriteItems name key perItem write count items xs =
      (xs.take (aofRewriteItemsPerCmd - count)).flatMap write ++
        rewriteItems name key perItem write 0 (items - (aofRewriteItemsPerCmd - count))
          (xs.drop (aofRewriteItemsPerCmd - count)) := by
  induction xs generalizing count items with
  | nil => simp [rewriteItems]
  | cons x xs ih =>
      obtain ⟨k, hk⟩ : ∃ k, aofRewriteItemsPerCmd - count = k + 1 := Nat.exists_eq_add_one.mpr (by omega)
      rw [hk, List.take_succ_cons, List.drop_succ_cons, List.flatMap_cons, rewriteItems, if_neg (by omega),
        List.nil_append, List.append_assoc]
      split
      · next hend =>
          obtain rfl : k = 0 := by omega
          rfl
      · next hin =>
          have hk' : aofRewriteItemsPerCmd - (count + 1) = k := by omega
          have hitems : items - 1 - k = items - (k + 1) := by omega
          rw [ih (by omega) (by omega), hk', hitems]

theorem flatMap_args {args : α → List Bytes} {xs : List α} (hwrite : ∀ x ∈ xs, write x = (args x).flatMap bulk) :
    (xs.flatMap args).flatMap bulk = xs.flatMap write := by
  rw [List.flatMap_assoc]
  exact List.flatMap_congr fun x hx => (hwrite x hx).symm

theorem length_flatMap_args {args : α → List Bytes} {xs : List α} (hargs : ∀ x ∈ xs, (args x).length = perItem) :
    (xs.flatMap args).length = xs.length * perItem := by
  induction xs with
  | nil => simp
  | cons x xs ih =>
      rw [List.flatMap_cons, List.length_append, hargs x List.mem_cons_self,
        ih fun y hy => hargs y (List.mem_cons_of_mem x hy), List.length_cons, Nat.succ_mul, Nat.add_comm]

/-- **The counts are right**: what is printed of a collection is the text of complete commands. -/
theorem rewriteItems_eq {args : α → List Bytes} {k : Bytes} {xs : List α} (hname : name.length < 2 ^ 31)
    (hkey : rioWriteBulkObject key = bulk k) (hper : perItem ≤ 2) (hargs : ∀ x ∈ xs, (args x).length = perItem)
    (hwrite : ∀ x ∈ xs, write x = (args x).flatMap bulk) :
    rewriteItems name key perItem write 0 xs.length xs = (itemCommands name k args xs).flatMap commandText := by
  unfold itemCommands
  induction xs using pieces.induct (aofRewriteItemsPerCmd - 1) with
  | case1 => simp [pieces, rewriteItems]
  | case2 x xs ih =>
      have hrest := ih (fun y hy => hargs y (List.mem_cons_of_mem x (List.mem_of_mem_drop hy)))
        (fun y hy => hwrite y (List.mem_cons_of_mem x (List.mem_of_mem_drop hy)))
      have hpiece : ∀ y ∈ x :: xs.take (aofRewriteItemsPerCmd - 1), y ∈ x :: xs := by
        intro y hy
        rcases List.mem_cons.mp hy with rfl | hy
        · exact List.mem_cons_self
        · exact List.mem_cons_of_mem x (List.mem_of_mem_take hy)
      -- the first command
      have hlen : ((x :: xs.take (aofRewriteItemsPerCmd - 1)).flatMap args).length =
          (if (x :: xs).length > aofRewriteItemsPerCmd then aofRewriteItemsPerCmd else (x :: xs).length) * perItem := by
        have hmin : min (64 - 1) xs.length + 1 = if xs.length + 1 > 64 then 64 else xs.length + 1 := by
          split <;> omega
        rw [length_flatMap_args fun y hy => hargs y (hpiece y hy), List.length_cons, List.length_take, List.length_cons,
          aofRewriteItemsPerCmd, hmin]
      have htext : ((x :: xs.take (aofRewriteItemsPerCmd - 1)).flatMap args).flatMap bulk =
          write x ++ (xs.take (aofRewriteItemsPerCmd - 1)).flatMap write :=
        flatMap_args fun y hy => hwrite y (hpiece y hy)
      have hfirst : rioWriteBulkCount 42 (2 + (if (x :: xs).length > aofRewriteItemsPerCmd then aofRewriteItemsPerCmd
            else (x :: xs).length) * perItem : Nat) ++ rioWriteBulkString name ++ rioWriteBulkObject key ++ write x ++
            (xs.take (aofRewriteItemsPerCmd - 1)).flatMap write =
          commandText (name :: k :: (x :: xs.take (aofRewriteItemsPerCmd - 1)).flatMap args) := by
        have hle : (if (x :: xs).length > aofRewriteItemsPerCmd then aofRewriteItemsPerCmd else (x :: xs).length) *
            perItem ≤ 64 * 2 := by
          apply Nat.mul_le_mul _ hper
          rw [aofRewriteItemsPerCmd]
          split <;> omega
        have hcount : (name :: k :: (x :: xs.take (aofRewriteItemsPerCmd - 1)).flatMap args).length =
            2 + (if (x :: xs).length > aofRewriteItemsPerCmd then aofRewriteItemsPerCmd else (x :: xs).length) *
              perItem := by
          rw [← hlen, List.length_cons, List.length_cons, Nat.add_comm 2]
        rw [rioWriteBulkCount_eq 42 (by omega), rioWriteBulkString_eq hname, hkey, commandText, hcount,
          List.flatMap_cons,
          @List.flatMap_cons _ _ k, htext]
        simp only [List.append_assoc]
      have hitems : (x :: xs).length - 1 - (aofRewriteItemsPerCmd - 1) =
          (xs.drop (aofRewriteItemsPerCmd - 1)).length := by
        rw [List.length_drop]
        rfl
      have hnext : (if 0 + 1 = aofRewriteItemsPerCmd then 0 else 0 + 1) = 1 := rfl
      rw [pieces, List.map_cons, List.flatMap_cons, ← hrest, ← hfirst, rewriteItems, if_pos rfl, hnext,
        rewriteItems_inside Nat.one_pos (by decide), hitems]
      simp only [List.append_assoc]

/-! ### Objects, keys and databases -/

variable {k : Bytes}

theorem elemItems_eq {es : List Elem} (hname : name.length < 2 ^ 31) (hk : k.length < 2 ^ 31)
    (hes : ∀ e ∈ es, e.Short) :
    rewriteItems name (.sds k) 1 rioWriteElem 0 es.length es =
      (itemCommands name k (fun e => [e.bytes]) es).flatMap commandText := by
  apply rewriteItems_eq hname (rioWriteBulkObject_sds hk) (by omega)
  · exact fun _ _ => rfl
  · intro e he
    simpa using rioWriteElem_eq (hes e he)

omit [ScoreFormat Score] in
theorem rewriteHashObject_eq {minExpire : Nat} {fs : List HashField} (hk : k.length < 2 ^ 31)
    (hfs : (Obj.hash minExpire fs : Obj Score).Valid) :
    rewriteHashObject (.sds k) minExpire fs = (hashCommands k minExpire fs).flatMap commandText := by
  obtain ⟨-, -, hfs⟩ := hfs
  unfold rewriteHashObject hashCommands
  split
  · apply rewriteItems_eq (by decide) (rioWriteBulkObject_sds hk) (by omega)
    · exact fun _ _ => rfl
    · intro f hf
      rw [rioWriteElem_eq (hfs f hf).1, rioWriteElem_eq (hfs f hf).2.1]
      simp [HashField.args]
  · rw [List.flatMap_assoc]
    apply List.flatMap_congr
    intro f hf
    obtain ⟨hfield, hvalue, hexpire⟩ := hfs f hf
    have hhmset : bytes "*4\r\n$5\r\nHMSET\r\n" = numberLine [42] 4 ++ bulk (bytes "HMSET") := by decide
    have hhpexpireat : bytes "*6\r\n$10\r\nHPEXPIREAT\r\n" = numberLine [42] 6 ++ bulk (bytes "HPEXPIREAT") := by decide
    have htime : rioWriteBulkLongLong f.expireTime = bulk (decimal f.expireTime) := by
      rw [ebExpireTimeInvalid] at hexpire
      exact rioWriteBulkLongLong_eq (by omega) (by omega)
    rw [List.flatMap_cons, rioWriteElem_eq hfield, rioWriteElem_eq hvalue, rioWriteBulkObject_sds hk, hhmset,
      hhpexpireat,
      htime, rioWriteBulkString_eq (by decide), rioWriteBulkString_eq (by decide)]
    congr 1
    · simp [commandText]
    · split
      · simp [commandText]
      · rfl

theorem rewriteSortedSetObject_eq {es : List (Elem × Score)} (hk : k.length < 2 ^ 31) (hes : ∀ e ∈ es, e.1.Short) :
    rewriteSortedSetObject (.sds k) es = (itemCommands (bytes "ZADD") k scoreArgs es).flatMap commandText := by
  apply rewriteItems_eq (by decide) (rioWriteBulkObject_sds hk) (by omega)
  · exact fun _ _ => rfl
  · intro e he
    have hscore := ScoreFormat.dtoa_length e.2
    rw [rioWriteElem_eq (hes e he), rioWriteBulkDouble, rioWriteBulkString_eq (by omega)]
    simp [scoreArgs]

theorem rewriteKey_eq {key : Key Score} (h : key.Valid) :
    rewriteKey key = (keyCommands key).flatMap commandText := by
  obtain ⟨k, o, expiretime⟩ := key
  obtain ⟨hk, ho, hlow, hhigh⟩ := h
  dsimp only at hk ho hlow hhigh
  have hpexpireat : bytes "*3\r\n$9\r\nPEXPIREAT\r\n" = numberLine [42] 3 ++ bulk (bytes "PEXPIREAT") := by decide
  unfold rewriteKey keyCommands
  dsimp only
  rw [List.flatMap_append]
  congr 1
  · cases o with
    | string o =>
        have hset : bytes "*3\r\n$3\r\nSET\r\n" = numberLine [42] 3 ++ bulk (bytes "SET") := by decide
        dsimp only [objCommands]
        rw [hset, rioWriteBulkObject_sds hk, rioWriteBulkObject_eq ho]
        simp [commandText]
    | list es => exact elemItems_eq (by decide) hk ho.2
    | set es => exact elemItems_eq (by decide) hk ho.2
    | zset es => exact rewriteSortedSetObject_eq hk ho.2
    | hash minExpire fs => exact rewriteHashObject_eq hk ho
  · split
    · rw [hpexpireat, rioWriteBulkObject_sds hk, rioWriteBulkLongLong_eq hlow hhigh]
      simp [commandText]
    · rfl

theorem rewriteDbs_eq {dbs : List (List (Key Score))} {j : Nat} (hj : j + dbs.length ≤ 2 ^ 31)
    (h : ∀ keys ∈ dbs, ∀ key ∈ keys, key.Valid) : rewriteDbs j dbs = (dbCommands j dbs).flatMap commandText := by
  induction dbs generalizing j with
  | nil => rfl
  | cons keys dbs ih =>
      rw [List.length_cons] at hj
      have hselect : bytes "*2\r\n$6\r\nSELECT\r\n" = numberLine [42] 2 ++ bulk (bytes "SELECT") := by decide
      have hkeys : keys.flatMap rewriteKey = (keys.flatMap keyCommands).flatMap commandText := by
        rw [List.flatMap_assoc]
        exact List.flatMap_congr fun key hkey => rewriteKey_eq (h keys List.mem_cons_self key hkey)
      rw [rewriteDbs, dbCommands, List.flatMap_append,
        ih (by omega) fun keys' hk' => h keys' (List.mem_cons_of_mem keys hk')]
      congr 1
      split
      · rfl
      · rw [hselect, rioWriteBulkLongLong_eq (by omega) (by omega), hkeys, List.flatMap_cons]
        simp [commandText]

theorem rewriteFunctions_eq {functions : List Bytes} (h : ∀ code ∈ functions, code.length < 2 ^ 31) :
    rewriteFunctions functions = (functionCommands functions).flatMap commandText := by
  have hload : bytes "*3\r\n" ++ bytes "$8\r\nFUNCTION\r\n$4\r\nLOAD\r\n" =
      numberLine [42] 3 ++ bulk (bytes "FUNCTION") ++ bulk (bytes "LOAD") := by decide
  rw [rewriteFunctions, functionCommands, List.flatMap_map]
  apply List.flatMap_congr
  intro code hcode
  rw [hload, rioWriteBulkString_eq (h code hcode)]
  simp [commandText]

/-- **The text of a rewritten file** is that of complete commands. -/
theorem rewriteAppendOnlyFileRio_eq {timestamp : Option Int} {functions : List Bytes} {dbs : List (List (Key Score))}
    (hfunctions : ∀ code ∈ functions, code.length < 2 ^ 31) (hdbs : dbs.length ≤ 2 ^ 31)
    (hkeys : ∀ keys ∈ dbs, ∀ key ∈ keys, key.Valid) :
    rewriteAppendOnlyFileRio timestamp functions dbs = fileText (rewriteFile timestamp functions dbs) := by
  have hcommands : ∀ cmds : List (List Bytes), fileText (cmds.map .command) = cmds.flatMap commandText := by
    intro cmds
    rw [fileText, List.flatMap_map]
    rfl
  unfold rewriteAppendOnlyFileRio rewriteFile
  rw [fileText_append, hcommands, List.flatMap_append, rewriteFunctions_eq hfunctions, rewriteDbs_eq (by omega) hkeys,
    ← List.append_assoc]
  congr 2
  cases timestamp with
  | none => rfl
  | some now => simp [Item.text, numberLine]

/-! ### Commands that can be loaded -/

/-- The names of the commands for keys. -/
def keyCommandNames : List String := ["SET", "RPUSH", "SADD", "ZADD", "HMSET", "HPEXPIREAT", "PEXPIREAT"]

/-- A command for a key. -/
structure Printed (k : Bytes) (argv : List Bytes) : Prop where
  fits : Fits argv
  named : ∃ name ∈ keyCommandNames, ∃ args, argv = bytes name :: k :: args

theorem itemCommands_printed {args : α → List Bytes} {xs : List α} {name : String} (hname : name ∈ keyCommandNames)
    (hk : k.length < 2 ^ 31) (hper : perItem ≤ 2) (hargs : ∀ x ∈ xs, (args x).length = perItem)
    (hshort : ∀ x ∈ xs, ∀ s ∈ args x, s.length < 2 ^ 31) :
    ∀ argv ∈ itemCommands (bytes name) k args xs, Printed k argv := by
  intro argv h
  obtain ⟨piece, hpiece, rfl⟩ := List.mem_map.mp h
  have hmem : ∀ x ∈ piece, x ∈ xs := fun x hx => mem_of_mem_pieces hpiece hx
  have hlen := length_le_of_mem_pieces hpiece
  have hcount := @length_flatMap_args _ perItem args piece fun x hx => hargs x (hmem x hx)
  have hle := Nat.mul_le_mul hlen hper
  have hnames : ∀ name ∈ keyCommandNames, (bytes name).length < 2 ^ 31 := by decide
  have hpieceLen : aofRewriteItemsPerCmd - 1 + 1 = 64 := rfl
  refine ⟨⟨by simp, ?_, ?_⟩, name, hname, _, rfl⟩
  · rw [List.length_cons, List.length_cons, hcount]
    omega
  · intro s hs
    rcases List.mem_cons.mp hs with rfl | hs
    · exact hnames name hname
    rcases List.mem_cons.mp hs with rfl | hs
    · exact hk
    · obtain ⟨x, hx, hs⟩ := List.mem_flatMap.mp hs
      exact hshort x (hmem x hx) s hs

theorem fits_small {argv : List Bytes} (hne : argv ≠ []) (hlen : argv.length ≤ 6)
    (hargs : ∀ s ∈ argv, s.length < 2 ^ 31) : Fits argv :=
  ⟨List.length_pos_iff.mpr hne, by omega, hargs⟩

omit [ScoreFormat Score] in
theorem hashCommands_printed {minExpire : Nat} {fs : List HashField} (hk : k.length < 2 ^ 31)
    (hfs : (Obj.hash minExpire fs : Obj Score).Valid) : ∀ argv ∈ hashCommands k minExpire fs, Printed k argv := by
  obtain ⟨-, -, hfs⟩ := hfs
  unfold hashCommands
  split
  · apply itemCommands_printed (by decide) hk (Nat.le_refl 2)
    · exact fun _ _ => rfl
    · intro f hf s hs
      simp only [HashField.args, List.mem_cons, List.not_mem_nil, or_false] at hs
      rcases hs with rfl | rfl
      · exact (hfs f hf).1
      · exact (hfs f hf).2.1
  · intro argv h
    obtain ⟨f, hf, h⟩ := List.mem_flatMap.mp h
    obtain ⟨hfield, hvalue, hexpire⟩ := hfs f hf
    have hname : (bytes "HMSET").length = 5 ∧ (bytes "HPEXPIREAT").length = 10 ∧ (bytes "FIELDS").length = 6 ∧
        (bytes "1").length = 1 := by decide
    have htime : (decimal f.expireTime).length < 2 ^ 31 := by
      rw [ebExpireTimeInvalid] at hexpire
      exact Nat.lt_of_le_of_lt (length_decimal_le (by omega) (by omega)) (by omega)
    rcases List.mem_cons.mp h with rfl | h
    · refine ⟨fits_small (by simp) (by simp) ?_, "HMSET", by decide, _, rfl⟩
      intro s hs
      simp only [List.mem_cons, List.not_mem_nil, or_false] at hs
      rcases hs with rfl | rfl | rfl | rfl
      · omega
      · exact hk
      · exact hfield
      · exact hvalue
    · split at h
      · obtain rfl := List.mem_singleton.mp h
        refine ⟨fits_small (by simp) (by simp) ?_, "HPEXPIREAT", by decide, _, rfl⟩
        intro s hs
        simp only [List.mem_cons, List.not_mem_nil, or_false] at hs
        rcases hs with rfl | rfl | rfl | rfl | rfl | rfl
        · omega
        · exact hk
        · exact htime
        · omega
        · omega
        · exact hfield
      · cases h

theorem keyCommands_printed {key : Key Score} (h : key.Valid) : ∀ argv ∈ keyCommands key, Printed key.keystr argv := by
  obtain ⟨k, o, expiretime⟩ := key
  obtain ⟨hk, ho, hlow, hhigh⟩ := h
  dsimp only at hk ho hlow hhigh ⊢
  have helems : ∀ {name : String} {es : List Elem}, name ∈ keyCommandNames → (∀ e ∈ es, e.Short) →
      ∀ argv ∈ itemCommands (bytes name) k (fun e => [e.bytes]) es, Printed k argv := by
    intro name es hname hes
    apply itemCommands_printed hname hk (by decide : 1 ≤ 2)
    · exact fun _ _ => rfl
    · intro e he s hs
      obtain rfl := List.mem_singleton.mp hs
      exact hes e he
  intro argv h
  rcases List.mem_append.mp h with h | h
  · cases o with
    | string o =>
        have hname : (bytes "SET").length = 3 := by decide
        obtain rfl := List.mem_singleton.mp h
        refine ⟨fits_small (by simp) (by simp) ?_, "SET", by decide, _, rfl⟩
        intro s hs
        simp only [List.mem_cons, List.not_mem_nil, or_false] at hs
        rcases hs with rfl | rfl | rfl
        · omega
        · exact hk
        · exact ho
    | list es => exact helems (by decide) ho.2 argv h
    | set es => exact helems (by decide) ho.2 argv h
    | hash minExpire fs => exact hashCommands_printed hk ho argv h
    | zset es =>
        refine itemCommands_printed (by decide) hk (Nat.le_refl 2) (fun _ _ => rfl) ?_ argv h
        intro e he s hs
        have hscore := ScoreFormat.dtoa_length e.2
        simp only [scoreArgs, List.mem_cons, List.not_mem_nil, or_false] at hs
        rcases hs with rfl | rfl
        · omega
        · exact ho.2 e he
  · split at h
    · have hname : (bytes "PEXPIREAT").length = 9 := by decide
      have htime := length_decimal_le hlow hhigh
      obtain rfl := List.mem_singleton.mp h
      refine ⟨fits_small (by simp) (by simp) ?_, "PEXPIREAT", by decide, _, rfl⟩
      intro s hs
      simp only [List.mem_cons, List.not_mem_nil, or_false] at hs
      rcases hs with rfl | rfl | rfl
      · omega
      · exact hk
      · omega
    · cases h

end Commands

end WasiPorts.Redis.Aof
