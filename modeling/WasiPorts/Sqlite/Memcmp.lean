import Mathlib
import WasiPorts.Lib.Socket

/-!
# The word-wise `memcmp` of the SQLite build

`sqlite3WasmMemcmp` compares eight bytes at a time: it loads both words in the byte order of the
target, and takes the first differing byte out of the two words by the number of trailing zeros of
their `xor`. The bytes that are left are compared one by one.

A pointer is the rest of the array it points into, and a read behind the end of an array gives
`none`. So a call that returns on arrays of length `n` reads nothing behind them.

* `leWord_getLsbD` — the bits of a word are the bits of its bytes.
* `wordDifference_spec` — the byte that is taken out of two words is the first that differs.
* `wasm_memcmp_bytewise` — the result is that of a comparison byte by byte.
-/

namespace WasiPorts.Sqlite

/-! ## The code -/

/-- Eight bytes as a number, in little-endian order. -/
def leWord (byte : Nat → Byte) : BitVec 64 :=
  (byte 7).toBitVec ++ (byte 6).toBitVec ++ (byte 5).toBitVec ++ (byte 4).toBitVec ++
    (byte 3).toBitVec ++ (byte 2).toBitVec ++ (byte 1).toBitVec ++ (byte 0).toBitVec

/-- `memcpy(&x, p, 8)`. -/
def memcpy8 (p : List Byte) : Option (BitVec 64) :=
  if 8 ≤ p.length then some (leWord fun i => p.getD i 0) else none

/-- `(unsigned)__builtin_ctzll(x^y) & ~7u`. -/
def mismatchShift (x y : BitVec 64) : Nat := ((x ^^^ y).ctz.setWidth 32 &&& ~~~7#32).toNat

/-- `(int)((x>>shift)&255)`. -/
def byteAtShift (x : BitVec 64) (shift : Nat) : Int := ((x >>> shift &&& 255#64).toNat : Int)

/-- The result for two words that differ. -/
def wordDifference (x y : BitVec 64) : Int :=
  byteAtShift x (mismatchShift x y) - byteAtShift y (mismatchShift x y)

/-- The second loop of `sqlite3WasmMemcmp`. -/
def compareBytes : List Byte → List Byte → Nat → Option Int
  | _, _, 0 => some 0
  | a, b, n + 1 => do
    let x ← a[0]?
    let y ← b[0]?
    let diff : Int := x.toNat - y.toNat
    if diff ≠ 0 then some diff else compareBytes (a.drop 1) (b.drop 1) n

/-- `sqlite3WasmMemcmp`. -/
def sqlite3WasmMemcmp : List Byte → List Byte → Nat → Option Int
  | a, b, n + 8 => do
    let x ← memcpy8 a
    let y ← memcpy8 b
    if x ≠ y then some (wordDifference x y) else sqlite3WasmMemcmp (a.drop 8) (b.drop 8) n
  | a, b, n => compareBytes a b n

/-! ## Words -/

theorem leWord_getLsbD (byte : Nat → Byte) {i k : Nat} (hi : i < 8) (hk : k < 8) :
    (leWord byte).getLsbD (8 * i + k) = (byte i).toBitVec.getLsbD k := by
  unfold leWord
  interval_cases i <;> simp only [BitVec.getLsbD_append] <;>
    grind

theorem mask_getLsbD {k : Nat} (hk : k < 64) : (255#64).getLsbD k = decide (k < 8) := by
  revert k
  decide

/-- A shift by whole bytes brings a byte to the front. -/
theorem byteAtShift_leWord (byte : Nat → Byte) {i : Nat} (hi : i < 8) :
    byteAtShift (leWord byte) (8 * i) = (byte i).toNat := by
  have hbits : leWord byte >>> (8 * i) &&& 255#64 = (byte i).toBitVec.setWidth 64 := by
    apply BitVec.eq_of_getLsbD_eq
    intro k hk
    rw [BitVec.getLsbD_and, BitVec.getLsbD_ushiftRight, mask_getLsbD hk, BitVec.getLsbD_setWidth]
    by_cases hk8 : k < 8
    · simp [leWord_getLsbD byte hi hk8, hk8, hk]
    · have hout : (byte i).toBitVec.getLsbD k = false :=
        BitVec.getLsbD_of_ge _ k (Nat.le_of_not_lt hk8)
      simp [hk8, hout]
  unfold byteAtShift
  rw [hbits, BitVec.toNat_setWidth_of_le (by decide)]
  rfl

/-- The trailing zeros of the `xor`, rounded down to a whole byte. -/
theorem mismatchShift_eq {x y : BitVec 64} (h : x ≠ y) :
    (x ^^^ y).ctz.toNat < 64 ∧ mismatchShift x y = 8 * ((x ^^^ y).ctz.toNat / 8) := by
  have hne : x ^^^ y ≠ 0#64 := fun h0 => h (BitVec.xor_eq_zero_iff.mp h0)
  have hlt : (x ^^^ y).ctz.toNat < 64 := BitVec.lt_def.mp (BitVec.ctz_lt_iff_ne_zero.mpr hne)
  refine ⟨hlt, ?_⟩
  have hround : ∀ c < 64, (BitVec.ofNat 32 c &&& ~~~7#32).toNat = 8 * (c / 8) := by decide
  unfold mismatchShift
  rw [← BitVec.ofNat_toNat, hround _ hlt]

/-- Two words that differ do so first in the byte that is taken out of them. -/
theorem wordDifference_spec {s t : Nat → Byte} (h : leWord s ≠ leWord t) :
    ∃ i < 8, (∀ j < i, s j = t j) ∧ s i ≠ t i ∧
      wordDifference (leWord s) (leWord t) = (s i).toNat - (t i).toNat := by
  obtain ⟨hlt, hshift⟩ := mismatchShift_eq h
  have hne : leWord s ^^^ leWord t ≠ 0#64 := fun h0 => h (BitVec.xor_eq_zero_iff.mp h0)
  have hbelow := fun k => BitVec.getLsbD_false_of_lt_ctz (x := leWord s ^^^ leWord t) (i := k)
  have hbit := BitVec.getLsbD_true_ctz_of_ne_zero hne
  generalize (leWord s ^^^ leWord t).ctz.toNat = c at hlt hshift hbelow hbit
  have hi : c / 8 < 8 := by omega
  have hk : c % 8 < 8 := by omega
  refine ⟨c / 8, hi, ?_, ?_, ?_⟩
  · -- below `c` no bit differs, so no byte before `c / 8` does
    intro j hj
    apply UInt8.toBitVec_inj.mp
    apply BitVec.eq_of_getLsbD_eq
    intro k hk
    have hxor := hbelow (8 * j + k) (by omega)
    rw [BitVec.getLsbD_xor, leWord_getLsbD s (by omega) hk, leWord_getLsbD t (by omega) hk] at hxor
    simpa using hxor
  · intro heq
    have hxor := hbit
    rw [show c = 8 * (c / 8) + c % 8 by omega, BitVec.getLsbD_xor, leWord_getLsbD s hi hk,
      leWord_getLsbD t hi hk, heq] at hxor
    simp at hxor
  · unfold wordDifference
    rw [hshift, byteAtShift_leWord s hi, byteAtShift_leWord t hi]

/-! ## The comparison -/

/-- `r` is the difference of the first bytes below `n` that differ, as unsigned bytes, and 0 if
there are none. -/
def FirstDifference (a b : List Byte) (n : Nat) (r : Int) : Prop :=
  (∀ i < n, a[i]? = b[i]?) ∧ r = 0 ∨
    ∃ i < n, ∃ x y, a[i]? = some x ∧ b[i]? = some y ∧ x ≠ y ∧ (∀ j < i, a[j]? = b[j]?) ∧
      r = x.toNat - y.toNat

variable {a b : List Byte} {n k : Nat} {r : Int}

/-- Equal bytes in front do not matter. -/
theorem FirstDifference.of_drop (heq : ∀ i < k, a[i]? = b[i]?)
    (h : FirstDifference (a.drop k) (b.drop k) n r) : FirstDifference a b (n + k) r := by
  rcases h with ⟨hall, hr⟩ | ⟨i, hi, x, y, hx, hy, hne, hbefore, hr⟩
  · refine .inl ⟨fun i hi => ?_, hr⟩
    by_cases hik : i < k
    · exact heq i hik
    · have := hall (i - k) (by omega)
      rwa [List.getElem?_drop, List.getElem?_drop, Nat.add_sub_of_le (by omega)] at this
  · rw [List.getElem?_drop] at hx hy
    refine .inr ⟨k + i, by omega, x, y, hx, hy, hne, fun j hj => ?_, hr⟩
    by_cases hjk : j < k
    · exact heq j hjk
    · have := hbefore (j - k) (by omega)
      rwa [List.getElem?_drop, List.getElem?_drop, Nat.add_sub_of_le (by omega)] at this

/-- The rest of the arrays is out of reach of the comparison. -/
theorem FirstDifference.of_take {m : Nat} (hm : n ≤ m)
    (h : FirstDifference (a.take m) (b.take m) n r) : FirstDifference a b n r := by
  have htake : ∀ (l : List Byte) {i : Nat}, i < n → (l.take m)[i]? = l[i]? :=
    fun l i hi => List.getElem?_take_of_lt (by omega)
  rcases h with ⟨hall, hr⟩ | ⟨i, hi, x, y, hx, hy, hne, hbefore, hr⟩
  · refine .inl ⟨fun i hi => ?_, hr⟩
    rw [← htake a hi, ← htake b hi]
    exact hall i hi
  · rw [htake a hi] at hx
    rw [htake b hi] at hy
    refine .inr ⟨i, hi, x, y, hx, hy, hne, fun j hj => ?_, hr⟩
    rw [← htake a (by omega), ← htake b (by omega)]
    exact hbefore j hj

theorem FirstDifference.unique {r' : Int} (h : FirstDifference a b n r)
    (h' : FirstDifference a b n r') : r = r' := by
  rcases h with ⟨hall, hr⟩ | ⟨i, hi, x, y, hx, hy, hne, hbefore, hr⟩ <;>
    rcases h' with ⟨hall', hr'⟩ | ⟨i', hi', x', y', hx', hy', hne', hbefore', hr'⟩
  · rw [hr, hr']
  · grind
  · grind
  · -- neither position comes before the other
    have hii : i = i' := by
      rcases Nat.lt_trichotomy i i' with hlt | heq | hgt
      · grind
      · exact heq
      · grind
    grind

theorem compareBytes_spec (ha : n ≤ a.length) (hb : n ≤ b.length) :
    ∃ r, compareBytes a b n = some r ∧ FirstDifference a b n r := by
  induction n generalizing a b with
  | zero => exact ⟨0, rfl, .inl ⟨fun i hi => absurd hi (Nat.not_lt_zero i), rfl⟩⟩
  | succ n ih =>
      have hx : a[0]? = some a[0] := List.getElem?_eq_getElem (by omega)
      have hy : b[0]? = some b[0] := List.getElem?_eq_getElem (by omega)
      have hdiff : ((a[0].toNat : Int) - b[0].toNat ≠ 0) ↔ a[0] ≠ b[0] := by
        rw [Ne, Int.sub_eq_zero, Int.natCast_inj, UInt8.toNat_inj]
      simp only [compareBytes, hx, hy, Option.bind_eq_bind, Option.bind_some]
      split
      · next hne =>
          refine ⟨_, rfl, .inr ⟨0, Nat.succ_pos n, a[0], b[0], hx, hy, hdiff.mp hne, ?_, rfl⟩⟩
          exact fun j hj => absurd hj (Nat.not_lt_zero j)
      · next heq =>
          have heq : a[0] = b[0] := Classical.not_not.mp fun hne => heq (hdiff.mpr hne)
          obtain ⟨r, hr, hfirst⟩ := ih (a := a.drop 1) (b := b.drop 1)
            (by rw [List.length_drop]; omega) (by rw [List.length_drop]; omega)
          refine ⟨r, hr, hfirst.of_drop fun i hi => ?_⟩
          obtain rfl : i = 0 := by omega
          rw [hx, hy, heq]

theorem memcpy8_eq {p : List Byte} (h : 8 ≤ p.length) :
    memcpy8 p = some (leWord fun i => p.getD i 0) := if_pos h

theorem leWord_inj {s t : Nat → Byte} (h : leWord s = leWord t) {i : Nat} (hi : i < 8) :
    s i = t i := by
  have hbyte := congrArg (byteAtShift · (8 * i)) h
  rw [byteAtShift_leWord s hi, byteAtShift_leWord t hi] at hbyte
  exact UInt8.toNat_inj.mp (Int.natCast_inj.mp hbyte)

theorem sqlite3WasmMemcmp_spec (ha : n ≤ a.length) (hb : n ≤ b.length) :
    ∃ r, sqlite3WasmMemcmp a b n = some r ∧ FirstDifference a b n r := by
  induction a, b, n using sqlite3WasmMemcmp.induct with
  | case1 a b n ih =>
      have hget : ∀ (p : List Byte), n + 8 ≤ p.length → ∀ i < 8, p[i]? = some (p.getD i 0) := by
        intro p hp i hi
        rw [List.getElem?_eq_getElem (by omega), List.getD_eq_getElem p 0 (by omega)]
      rw [sqlite3WasmMemcmp, memcpy8_eq (by omega), memcpy8_eq (by omega)]
      simp only [Option.bind_eq_bind, Option.bind_some]
      split
      · next hne =>
          obtain ⟨i, hi, hbefore, hdiff, hr⟩ := wordDifference_spec hne
          refine ⟨_, rfl, .inr ⟨i, by omega, a.getD i 0, b.getD i 0, hget a ha i hi, hget b hb i hi,
            hdiff, fun j hj => ?_, hr⟩⟩
          rw [hget a ha j (by omega), hget b hb j (by omega), hbefore j hj]
      · next heq =>
          have heq := Classical.not_not.mp heq
          obtain ⟨r, hr, hfirst⟩ := ih (by rw [List.length_drop]; omega)
            (by rw [List.length_drop]; omega)
          refine ⟨r, hr, hfirst.of_drop fun i hi => ?_⟩
          rw [hget a ha i hi, hget b hb i hi, leWord_inj heq hi]
  | case2 a b n hlt =>
      rw [sqlite3WasmMemcmp.eq_2 a b n hlt]
      exact compareBytes_spec ha hb

/-- **The comparison word by word is the comparison byte by byte.** It also returns, with the same
result, when the arrays end after `n` bytes and a read of a further one would fail. -/
theorem wasm_memcmp_bytewise (a b : List Byte) (n : Nat) (ha : n ≤ a.length) (hb : n ≤ b.length) :
    ∃ r, sqlite3WasmMemcmp a b n = some r ∧ FirstDifference a b n r ∧
      sqlite3WasmMemcmp (a.take n) (b.take n) n = some r := by
  obtain ⟨r, hr, hfirst⟩ := sqlite3WasmMemcmp_spec ha hb
  obtain ⟨r', hr', hfirst'⟩ := sqlite3WasmMemcmp_spec (a := a.take n) (b := b.take n) (n := n)
    (by rw [List.length_take]; omega) (by rw [List.length_take]; omega)
  refine ⟨r, hr, hfirst, ?_⟩
  rw [hr', (hfirst'.of_take (Nat.le_refl n)).unique hfirst]

/-- The third bytes differ; the later ones, which weigh more in the word, differ the other way. -/
theorem nine_bytes_compared :
    ∃ r, sqlite3WasmMemcmp [1, 2, 200, 4, 5, 6, 7, 8, 9] [1, 2, 3, 255, 5, 6, 7, 80, 9] 9 = some r ∧
      FirstDifference [1, 2, 200, 4, 5, 6, 7, 8, 9] [1, 2, 3, 255, 5, 6, 7, 80, 9] 9 r ∧
      sqlite3WasmMemcmp ([1, 2, 200, 4, 5, 6, 7, 8, 9].take 9)
        ([1, 2, 3, 255, 5, 6, 7, 80, 9].take 9) 9 = some r :=
  wasm_memcmp_bytewise _ _ 9 (by decide) (by decide)

example : sqlite3WasmMemcmp [1, 2, 200, 4, 5, 6, 7, 8, 9] [1, 2, 3, 255, 5, 6, 7, 80, 9] 9 = some 197 := by
  decide +kernel

end WasiPorts.Sqlite
