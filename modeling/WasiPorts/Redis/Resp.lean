import WasiPorts.Redis.Numbers

/-!
# Writing commands as text

A command is written as the number of its arguments and, for each of them, its length and its bytes.
`catAppendOnlyGenericCommand` of `aof.c` writes a command that was executed, and the `rioWriteBulk`
functions of `rio.c` write what a rewrite makes up.

* `getDecodedObject_tryObjectEncoding` — a string that is kept as an integer is printed as it was.
* `catAppendOnlyGenericCommand_eq` — what is written are the bytes of the arguments, however they are kept.
-/

namespace WasiPorts.Redis

open WasiPorts.Text

/-! ## Strings -/

/-- A string object: its bytes (`OBJ_ENCODING_RAW`, `OBJ_ENCODING_EMBSTR`) or a `long`
(`OBJ_ENCODING_INT`). -/
inductive Robj where
  | sds (s : Bytes)
  | int (n : Int32)
  deriving DecidableEq

/-- `string2l`. -/
def string2l (s : Bytes) : Option Int32 :=
  match string2ll s with
  | none => none
  | some z => if z < -2 ^ 31 ∨ z > 2 ^ 31 - 1 then none else some (Int32.ofInt z)

/-- `tryObjectEncoding`; an object that is shared stays as it is. -/
def tryObjectEncoding (shared : Bool) : Robj → Robj
  | .int n => .int n
  | .sds s =>
    if shared then .sds s
    else if s.length ≤ 20 then
      match string2l s with
      | some n => .int n
      | none => .sds s
    else .sds s

/-- `getDecodedObject`. -/
def getDecodedObject : Robj → Bytes
  | .sds s => s
  | .int n => ll2string 32 n.toInt

theorem ll2string_long {dstlen : Nat} (hlen : 22 ≤ dstlen) (n : Int32) :
    ll2string dstlen n.toInt = decimal n.toInt := by
  have hlow := n.le_toInt
  have hhigh := n.toInt_lt
  exact ll2string_eq hlen (by omega) (by omega)

theorem string2l_some_iff {s : Bytes} {n : Int32} : string2l s = some n ↔ s = decimal n.toInt := by
  have hlow := n.le_toInt
  have hhigh := n.toInt_lt
  unfold string2l
  constructor
  · intro h
    split at h
    · cases h
    · next z hz =>
        obtain ⟨rfl, -, -⟩ := (string2ll_eq_some_iff s z).mp hz
        split at h
        · cases h
        · obtain rfl := Option.some.inj h
          rw [Int32.toInt_ofInt_of_le (by omega) (by omega)]
  · rintro rfl
    rw [(string2ll_eq_some_iff _ n.toInt).mpr ⟨rfl, by omega, by omega⟩]
    dsimp only
    rw [if_neg (by omega), Int32.ofInt_toInt]

/-- However a string is kept, the same bytes are printed. -/
theorem getDecodedObject_tryObjectEncoding (shared : Bool) (o : Robj) :
    getDecodedObject (tryObjectEncoding shared o) = getDecodedObject o := by
  cases o with
  | int n => rfl
  | sds s =>
      rw [tryObjectEncoding]
      split
      · rfl
      split
      · split
        · next n hn =>
            rw [string2l_some_iff.mp hn]
            exact ll2string_long (by omega) n
        · rfl
      · rfl

/-! ## Commands -/

def crlf : Bytes := [13, 10]

/-- `catAppendOnlyGenericCommand`. -/
def catAppendOnlyGenericCommand (dst : Bytes) (argv : List Robj) : Bytes :=
  argv.foldl (fun dst o =>
      let s := getDecodedObject o
      dst ++ (36 :: ll2string 31 s.length ++ crlf) ++ s ++ crlf)
    (dst ++ (42 :: ll2string 31 argv.length ++ crlf))

/-- `rioWriteBulkCount`; `count` is converted to `long`. -/
def rioWriteBulkCount (b : UInt8) (count : Int) : Bytes :=
  b :: ll2string 127 (count.bmod (2 ^ 32)) ++ crlf

/-- `rioWriteBulkString`. -/
def rioWriteBulkString (s : Bytes) : Bytes := rioWriteBulkCount 36 s.length ++ s ++ crlf

/-- `rioWriteBulkLongLong`. -/
def rioWriteBulkLongLong (z : Int) : Bytes := rioWriteBulkString (ll2string 32 z)

/-- `rioWriteBulkObject`. -/
def rioWriteBulkObject : Robj → Bytes
  | .int n => rioWriteBulkLongLong n.toInt
  | .sds s => rioWriteBulkString s

/-! ## The text of a command -/

/-- A line that ends in a number. -/
def numberLine (start : Bytes) (z : Int) : Bytes := start ++ (decimal z ++ crlf)

/-- One argument. -/
def bulk (s : Bytes) : Bytes := numberLine [36] s.length ++ (s ++ crlf)

def commandText (argv : List Bytes) : Bytes := numberLine [42] argv.length ++ argv.flatMap bulk

/-- Arguments and their number that the loader can read: it reads the lengths into a `long`, and refuses more
arguments than there can be pointers to them. -/
structure Fits (argv : List Bytes) : Prop where
  argc_pos : 0 < argv.length
  argc_le : argv.length ≤ 2 ^ 30 - 1
  args : ∀ s ∈ argv, s.length < 2 ^ 31

theorem fits_iff {argv : List Bytes} :
    Fits argv ↔ 0 < argv.length ∧ argv.length ≤ 2 ^ 30 - 1 ∧ ∀ s ∈ argv, s.length < 2 ^ 31 :=
  ⟨fun h => ⟨h.1, h.2, h.3⟩, fun h => ⟨h.1, h.2.1, h.2.2⟩⟩

theorem ll2string_natCast {dstlen n : Nat} (hlen : 22 ≤ dstlen) (hn : n < 2 ^ 31) :
    ll2string dstlen n = decimal n :=
  ll2string_eq hlen (by omega) (by omega)

theorem rioWriteBulkCount_eq (b : UInt8) {n : Nat} (hn : n < 2 ^ 31) :
    rioWriteBulkCount b n = numberLine [b] n := by
  have hmod : (n : Int).bmod (2 ^ 32) = n := Int.bmod_eq_of_le (by omega) (by omega)
  rw [rioWriteBulkCount, hmod, ll2string_natCast (by omega) hn]
  rfl

theorem rioWriteBulkString_eq {s : Bytes} (hs : s.length < 2 ^ 31) : rioWriteBulkString s = bulk s := by
  rw [rioWriteBulkString, rioWriteBulkCount_eq 36 hs, List.append_assoc, bulk]

theorem length_decimal_le {z : Int} (hlow : -2 ^ 63 ≤ z) (hhigh : z < 2 ^ 63) : (decimal z).length ≤ 20 := by
  have hdigits := @length_digits_le z.natAbs 19 (by omega) (by omega)
  unfold decimal
  split
  · rw [List.length_cons]
    omega
  · omega

theorem rioWriteBulkLongLong_eq {z : Int} (hlow : -2 ^ 63 ≤ z) (hhigh : z < 2 ^ 63) :
    rioWriteBulkLongLong z = bulk (decimal z) := by
  have hlen := length_decimal_le hlow hhigh
  rw [rioWriteBulkLongLong, ll2string_eq (by omega) hlow hhigh]
  exact rioWriteBulkString_eq (by omega)

/-- A rewrite prints an object as `catAppendOnlyGenericCommand` does. -/
theorem rioWriteBulkObject_eq {o : Robj} (ho : (getDecodedObject o).length < 2 ^ 31) :
    rioWriteBulkObject o = bulk (getDecodedObject o) := by
  cases o with
  | sds s => exact rioWriteBulkString_eq ho
  | int n => exact rioWriteBulkString_eq ho

/-- **What is written of a command** depends on the bytes of its arguments only. -/
theorem catAppendOnlyGenericCommand_eq (dst : Bytes) {argv : List Robj} (h : Fits (argv.map getDecodedObject)) :
    catAppendOnlyGenericCommand dst argv = dst ++ commandText (argv.map getDecodedObject) := by
  have hfold : ∀ (os : List Robj) (dst : Bytes), (∀ s ∈ os.map getDecodedObject, s.length < 2 ^ 31) →
      os.foldl (fun dst o =>
          let s := getDecodedObject o
          dst ++ (36 :: ll2string 31 s.length ++ crlf) ++ s ++ crlf) dst =
        dst ++ (os.map getDecodedObject).flatMap bulk := by
    intro os
    induction os with
    | nil => simp
    | cons o os ih =>
        intro dst hos
        have ho := hos _ (List.mem_map_of_mem List.mem_cons_self)
        rw [List.foldl_cons, ih _ fun s hs => hos s (List.mem_cons_of_mem _ hs)]
        simp [bulk, numberLine, ll2string_natCast _ ho]
  have hargc := h.argc_le
  rw [List.length_map] at hargc
  rw [catAppendOnlyGenericCommand, hfold argv _ h.args, ll2string_natCast (by omega) (by omega)]
  simp [commandText, numberLine]

end WasiPorts.Redis
