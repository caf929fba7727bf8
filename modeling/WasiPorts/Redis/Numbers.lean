import Mathlib.Tactic.NormNum
import Mathlib.Tactic.Positivity
import Mathlib.Tactic.SplitIfs
import WasiPorts.Lib.Text

/-!
# Printing and parsing integers

`ll2string` and `string2ll` of `util.c`. Printing computes the number of digits first and then writes two
digits at a time from the end of the buffer; parsing checks for overflow at every digit.

* `ll2string_eq` — a `long long` is printed as its decimal digits.
* `string2ll_eq_some_iff` — exactly the decimal digits of a `long long` are parsed.
-/

namespace WasiPorts.Redis

open WasiPorts.Text

/-! ## Printing -/

/-- `digits10`. -/
def digits10 (v : Nat) : Nat :=
  if v < 10 then 1
  else if v < 100 then 2
  else if v < 1000 then 3
  else if v < 1000000000000 then
    if v < 100000000 then
      if v < 1000000 then
        if v < 10000 then 4 else 5 + (if 100000 ≤ v then 1 else 0)
      else 7 + (if 10000000 ≤ v then 1 else 0)
    else if v < 10000000000 then 9 + (if 1000000000 ≤ v then 1 else 0)
    else 11 + (if 100000000000 ≤ v then 1 else 0)
  else 12 + digits10 (v / 1000000000000)
termination_by v
decreasing_by omega

/-- The table of `ull2string`: the numbers below 100 with two digits each. -/
def digitPairs : Bytes := bytes ("0001020304050607080910111213141516171819" ++
  "2021222324252627282930313233343536373839" ++ "4041424344454647484950515253545556575859" ++
  "6061626364656667686970717273747576777879" ++ "8081828384858687888990919293949596979899")

/-- `digits[i]`. -/
def pairAt (i : Nat) : UInt8 := digitPairs.getD i 0

/-- The loop of `ull2string`; the last one or two digits are written behind it. -/
def ull2stringLoop (value next : Nat) (dst : Bytes) : Bytes :=
  if 100 ≤ value then
    let i := value % 100 * 2
    ull2stringLoop (value / 100) (next - 2) ((dst.set next (pairAt (i + 1))).set (next - 1) (pairAt i))
  else if value < 10 then dst.set next (digit value)
  else
    let i := value * 2
    (dst.set next (pairAt (i + 1))).set (next - 1) (pairAt i)
termination_by value
decreasing_by omega

/-- `ull2string`: what is in the buffer up to the terminator; nothing if the buffer is too small. -/
def ull2string (dstlen value : Nat) : Bytes :=
  let length := digits10 value
  if dstlen ≤ length then []
  else ull2stringLoop value (length - 1) (List.replicate length 0)

/-- `ll2string`. The negation of `LLONG_MIN` is its absolute value as an `unsigned long long`. -/
def ll2string (dstlen : Nat) (svalue : Int) : Bytes :=
  if svalue < 0 then
    if dstlen < 2 then []
    else
      let digits := ull2string (dstlen - 1) svalue.natAbs
      if digits = [] then [] else 45 :: digits
  else ull2string dstlen svalue.natAbs

/-! ## Parsing -/

/-- `LONG_STR_SIZE`. -/
def longStrSize : Nat := 21

/-- The loop of `string2ll`: the value of the digits behind `v` and what follows them; `none` on an overflow
of `unsigned long long`. -/
def string2llLoop (v : Nat) : Bytes → Option (Nat × Bytes)
  | [] => some (v, [])
  | c :: rest =>
    if isDigit c then
      if v > (2 ^ 64 - 1) / 10 then none
      else if v * 10 > 2 ^ 64 - 1 - (c.toNat - 48) then none
      else string2llLoop (v * 10 + (c.toNat - 48)) rest
    else some (v, c :: rest)

/-- `string2ll` behind the sign. -/
def string2llDigits (negative : Bool) : Bytes → Option Int
  | [] => none
  | c :: rest =>
    if 49 ≤ c ∧ c ≤ 57 then
      match string2llLoop (c.toNat - 48) rest with
      | some (v, []) =>
        if negative then
          if v > 2 ^ 63 then none else some (-(v : Int))
        else if v > 2 ^ 63 - 1 then none else some v
      | _ => none
    else none

/-- `string2ll`. -/
def string2ll (s : Bytes) : Option Int :=
  if s = [] ∨ longStrSize ≤ s.length then none
  else if s = [48] then some 0
  else
    match s with
    | 45 :: rest => string2llDigits true rest
    | _ => string2llDigits false s

/-! ## What is printed -/

/-- A digit more. -/
theorem digits_append {v d : Nat} (hv : 0 < v) (hd : d < 10) : digits (10 * v + d) = digits v ++ [digit d] := by
  have hrec : Nat.digits 10 (10 * v + d) = d :: Nat.digits 10 v := by
    rw [Nat.digits_def' (by omega) (by omega)]
    congr 2 <;> omega
  rw [digits, digits, if_neg (by omega), if_neg (by omega), hrec]
  simp

theorem digits_one {v : Nat} (hv : v < 10) : digits v = [digit v] := by
  unfold digits
  split
  · next h =>
      subst h
      rfl
  · next h =>
      rw [Nat.digits_of_lt 10 v h hv]
      rfl

theorem digits_ten {v : Nat} (hlow : 10 ≤ v) (hhigh : v < 100) : digits v = [digit (v / 10), digit (v % 10)] := by
  have hsplit : v = 10 * (v / 10) + v % 10 := by omega
  conv_lhs => rw [hsplit]
  rw [digits_append (by omega) (by omega), digits_one (by omega)]
  rfl

theorem digits_hundred {v : Nat} (hv : 100 ≤ v) :
    digits v = digits (v / 100) ++ [digit (v % 100 / 10), digit (v % 10)] := by
  have hsplit : v = 10 * (10 * (v / 100) + v % 100 / 10) + v % 10 := by omega
  conv_lhs => rw [hsplit]
  rw [digits_append (by omega) (by omega), digits_append (by omega) (by omega), List.append_assoc]
  rfl

theorem length_digits {v k : Nat} (hlow : 10 ^ k ≤ v) (hhigh : v < 10 ^ (k + 1)) : (digits v).length = k + 1 := by
  have hne : v ≠ 0 := by
    have hpos : 0 < 10 ^ k := by positivity
    omega
  rw [digits, if_neg hne, List.length_reverse, List.length_map, Nat.length_digits 10 v (by omega) hne,
    Nat.log_eq_of_pow_le_of_lt_pow hlow hhigh]

theorem length_digits_div {v : Nat} (hv : 1000000000000 ≤ v) :
    (digits v).length = 12 + (digits (v / 1000000000000)).length := by
  have hstep : ∀ n : Nat, 100 ≤ n → (digits n).length = 2 + (digits (n / 100)).length := by
    intro n hn
    rw [digits_hundred hn, List.length_append]
    simp
    omega
  have hdiv : v / 100 / 100 / 100 / 100 / 100 / 100 = v / 1000000000000 := by
    simp only [Nat.div_div_eq_div_mul]
  rw [hstep v (by omega), hstep (v / 100) (by omega), hstep (v / 100 / 100) (by omega),
    hstep (v / 100 / 100 / 100) (by omega), hstep (v / 100 / 100 / 100 / 100) (by omega),
    hstep (v / 100 / 100 / 100 / 100 / 100) (by omega), hdiv]
  omega

/-- `digits10` counts the digits. -/
theorem digits10_eq (v : Nat) : digits10 v = (digits v).length := by
  induction v using Nat.strong_induction_on with
  | _ v ih =>
      have hlen : ∀ k, 10 ^ k ≤ v → v < 10 ^ (k + 1) → k + 1 = (digits v).length :=
        fun k hlow hhigh => (length_digits hlow hhigh).symm
      rw [digits10]
      split_ifs with h₁ h₂ h₃ h₁₂ h₈ h₆ h₄ h₅ h₇ h₁₀ h₉ h₁₁
      · rw [digits_one h₁]
        rfl
      · exact hlen 1 (by omega) (by omega)
      · exact hlen 2 (by omega) (by omega)
      · exact hlen 3 (by omega) (by omega)
      · exact hlen 5 (by omega) (by omega)
      · exact hlen 4 (by omega) (by omega)
      · exact hlen 7 (by omega) (by omega)
      · exact hlen 6 (by omega) (by omega)
      · exact hlen 9 (by omega) (by omega)
      · exact hlen 8 (by omega) (by omega)
      · exact hlen 11 (by omega) (by omega)
      · exact hlen 10 (by omega) (by omega)
      · rw [ih (v / 1000000000000) (by omega), ← length_digits_div (by omega)]

theorem pairAt_eq : ∀ i < 100, pairAt (i * 2) = digit (i / 10) ∧ pairAt (i * 2 + 1) = digit (i % 10) := by
  decide +kernel

/-- The loop fills the buffer up to `next`. -/
theorem ull2stringLoop_eq (value : Nat) {next : Nat} {dst : Bytes} (hnext : next + 1 = (digits value).length)
    (hdst : next < dst.length) : ull2stringLoop value next dst = digits value ++ dst.drop (next + 1) := by
  induction value using Nat.strong_induction_on generalizing next dst with
  | _ value ih =>
      -- two digits are written below what is there
      have hpair : ∀ {n : Nat} {a b : UInt8} {xs : Bytes}, n + 1 < xs.length →
          ((xs.set (n + 1) b).set n a).drop n = a :: b :: xs.drop (n + 2) := by
        intro n a b xs hn
        rw [List.drop_eq_getElem_cons (by simp; omega), List.drop_eq_getElem_cons (by simp; omega),
          List.drop_set_of_lt (by omega), List.drop_set_of_lt (by omega)]
        simp
      rw [ull2stringLoop]
      split_ifs with hhundred hten
      · obtain ⟨hfst, hsnd⟩ := pairAt_eq (value % 100) (by omega)
        have hmod : value % 100 % 10 = value % 10 := by omega
        have hlen := congrArg List.length (digits_hundred hhundred)
        rw [List.length_append] at hlen
        simp only [List.length_cons, List.length_nil] at hlen
        have hpos : 0 < (digits (value / 100)).length := List.length_pos_iff.mpr (digits_ne_nil _)
        obtain ⟨m, rfl⟩ : ∃ m, next = m + 2 := ⟨next - 2, by omega⟩
        dsimp only
        rw [ih (value / 100) (by omega) (by omega) (by simp; omega), hfst, hsnd, hmod]
        have hdrop := @hpair (m + 1) (digit (value % 100 / 10)) (digit (value % 10)) dst (by omega)
        rw [show m + 2 - 2 + 1 = m + 1 from rfl, show m + 2 - 1 = m + 1 from rfl, hdrop, digits_hundred hhundred,
          List.append_assoc]
        rfl
      · rw [digits_one hten] at hnext ⊢
        obtain rfl : next = 0 := by simpa using hnext
        cases dst with
        | nil => simp at hdst
        | cons x dst => rfl
      · rw [digits_ten (by omega) (by omega)] at hnext ⊢
        obtain rfl : next = 1 := by simpa using hnext
        obtain ⟨hfst, hsnd⟩ := pairAt_eq value (by omega)
        dsimp only
        have hdrop := @hpair 0 (pairAt (value * 2)) (pairAt (value * 2 + 1)) dst (by omega)
        rw [List.drop_zero] at hdrop
        rw [show 1 - 1 = 0 from rfl, hdrop, hfst, hsnd]
        rfl

theorem ull2string_eq {dstlen value : Nat} (h : (digits value).length < dstlen) :
    ull2string dstlen value = digits value := by
  have hpos : 0 < (digits value).length := List.length_pos_iff.mpr (digits_ne_nil _)
  unfold ull2string
  rw [digits10_eq]
  dsimp only
  rw [if_neg (by omega), ull2stringLoop_eq value (by omega) (by simp; omega)]
  simp [Nat.sub_add_cancel hpos]

theorem length_digits_le {v k : Nat} (hk : 0 < k) (hv : v < 10 ^ k) : (digits v).length ≤ k := by
  unfold digits
  split
  · exact hk
  · rwa [List.length_reverse, List.length_map, Nat.digits_length_le_iff (by omega)]

/-- **Printing.** In a buffer of at least 22 bytes, a `long long` is printed as its decimal digits. -/
theorem ll2string_eq {dstlen : Nat} {z : Int} (hlen : 22 ≤ dstlen) (hlow : -2 ^ 63 ≤ z) (hhigh : z < 2 ^ 63) :
    ll2string dstlen z = decimal z := by
  have hdigits := @length_digits_le z.natAbs 20 (by omega) (by omega)
  unfold ll2string decimal
  split
  · rw [if_neg (by omega)]
    dsimp only
    rw [ull2string_eq (by omega), if_neg (digits_ne_nil _)]
  · exact ull2string_eq (by omega)

/-- The number whose absolute value is no `long long`. -/
theorem ll2string_min : ll2string 22 (-2 ^ 63) = decimal (-2 ^ 63) :=
  ll2string_eq (by decide) (by decide) (by decide)

/-! ## What is parsed -/

/-- The value of the digits `xs` behind `v`. -/
def valueFrom (v : Nat) (xs : Bytes) : Nat := xs.foldl (fun v b => 10 * v + (b.toNat - 48)) v

theorem le_valueFrom (v : Nat) (xs : Bytes) : v ≤ valueFrom v xs := by
  unfold valueFrom
  induction xs generalizing v with
  | nil => exact Nat.le_refl v
  | cons b xs ih =>
      have := ih (10 * v + (b.toNat - 48))
      rw [List.foldl_cons]
      omega

theorem string2llLoop_some {v v' : Nat} {xs : Bytes} (h : string2llLoop v xs = some (v', [])) :
    xs.all isDigit = true ∧ v' = valueFrom v xs := by
  induction xs generalizing v with
  | nil =>
      obtain rfl : v = v' := by simpa [string2llLoop] using h
      exact ⟨rfl, rfl⟩
  | cons c xs ih =>
      unfold string2llLoop at h
      split_ifs at h with hdigit hover hover'
      · obtain ⟨hall, hv⟩ := ih h
        refine ⟨by simp [hdigit, hall], ?_⟩
        rw [hv, Nat.mul_comm v 10]
        rfl
      · cases h

/-- No overflow is reported for a value that fits. -/
theorem string2llLoop_eq {v : Nat} {xs : Bytes} (hall : xs.all isDigit = true) (hfit : valueFrom v xs < 2 ^ 64) :
    string2llLoop v xs = some (valueFrom v xs, []) := by
  induction xs generalizing v with
  | nil => rfl
  | cons c xs ih =>
      rw [List.all_cons, Bool.and_eq_true] at hall
      have hnext : valueFrom v (c :: xs) = valueFrom (v * 10 + (c.toNat - 48)) xs := by
        rw [Nat.mul_comm v 10]
        rfl
      rw [hnext] at hfit ⊢
      have hle := le_valueFrom (v * 10 + (c.toNat - 48)) xs
      rw [string2llLoop, if_pos hall.1, if_neg (by omega), if_neg (by omega)]
      exact ih hall.2 hfit

/-- Digits without a leading zero are those of their value. -/
theorem digits_valueFrom {xs : Bytes} {v : Nat} (hv : 0 < v) (hall : xs.all isDigit = true) :
    digits (valueFrom v xs) = digits v ++ xs := by
  induction xs generalizing v with
  | nil => simp [valueFrom]
  | cons c xs ih =>
      rw [List.all_cons, Bool.and_eq_true, isDigit_iff] at hall
      have hc : digit (c.toNat - 48) = c := by
        rw [← UInt8.toNat_inj, digit_toNat (by omega)]
        omega
      have hnext : valueFrom v (c :: xs) = valueFrom (10 * v + (c.toNat - 48)) xs := rfl
      rw [hnext, ih (by omega) hall.2, digits_append hv (by omega), hc, List.append_assoc]
      rfl

/-- The digits of a positive number start with one that is not zero. -/
theorem digits_pos {v : Nat} (hv : 0 < v) :
    ∃ c rest, digits v = c :: rest ∧ (49 ≤ c.toNat ∧ c.toNat ≤ 57) ∧ rest.all isDigit = true ∧
      v = valueFrom (c.toNat - 48) rest := by
  induction v using Nat.strong_induction_on with
  | _ v ih =>
      by_cases hlt : v < 10
      · refine ⟨digit v, [], digits_one hlt, ?_, rfl, ?_⟩
        · rw [digit_toNat hlt]
          omega
        · rw [digit_toNat hlt]
          exact (Nat.add_sub_cancel_left 48 v).symm
      · obtain ⟨c, rest, hdigits, hc, hall, hval⟩ := ih (v / 10) (by omega) (by omega)
        have hsplit : v = 10 * (v / 10) + v % 10 := by omega
        have hlast : isDigit (digit (v % 10)) = true := isDigit_digit (by omega)
        refine ⟨c, rest ++ [digit (v % 10)], ?_, hc, by simp [hall, hlast], ?_⟩
        · conv_lhs => rw [hsplit]
          rw [digits_append (by omega) (by omega), hdigits]
          rfl
        · have hdigit := @digit_toNat (v % 10) (by omega)
          have happend : valueFrom (c.toNat - 48) (rest ++ [digit (v % 10)]) =
              10 * valueFrom (c.toNat - 48) rest + ((digit (v % 10)).toNat - 48) := by
            simp [valueFrom]
          rw [happend, ← hval, hdigit]
          omega

/-- What stands behind the sign. -/
theorem string2llDigits_some_iff {negative : Bool} {s : Bytes} {z : Int} :
    string2llDigits negative s = some z ↔
      ∃ v, 0 < v ∧ s = digits v ∧ (if negative then v ≤ 2 ^ 63 ∧ z = -(v : Int) else v < 2 ^ 63 ∧ z = v) := by
  constructor
  · intro h
    cases s with
    | nil => cases h
    | cons c rest =>
        rw [string2llDigits] at h
        split at h
        · next hc =>
            rw [UInt8.le_iff_toNat_le, UInt8.le_iff_toNat_le] at hc
            have hc' : 49 ≤ c.toNat ∧ c.toNat ≤ 57 := hc
            split at h
            · next v hloop =>
                obtain ⟨hall, rfl⟩ := string2llLoop_some hloop
                have hle := le_valueFrom (c.toNat - 48) rest
                have hfirst : digit (c.toNat - 48) = c := by
                  rw [← UInt8.toNat_inj, digit_toNat (by omega)]
                  omega
                have hpos : 0 < c.toNat - 48 := by omega
                have hlt : c.toNat - 48 < 10 := by omega
                refine ⟨_, Nat.lt_of_lt_of_le hpos hle, ?_, ?_⟩
                · rw [digits_valueFrom hpos hall, digits_one hlt, hfirst]
                  rfl
                · split_ifs at h ⊢
                  · exact ⟨by omega, (Option.some.inj h).symm⟩
                  · exact ⟨by omega, (Option.some.inj h).symm⟩
            · cases h
        · cases h
  · rintro ⟨v, hv, rfl, hz⟩
    obtain ⟨c, rest, hdigits, ⟨hlow, hhigh⟩, hall, hval⟩ := digits_pos hv
    have hfit : v < 2 ^ 64 := by split at hz <;> omega
    rw [hdigits, string2llDigits, if_pos (by rw [UInt8.le_iff_toNat_le, UInt8.le_iff_toNat_le]; exact ⟨hlow, hhigh⟩),
      string2llLoop_eq hall (by rw [← hval]; exact hfit), ← hval]
    dsimp only
    split_ifs at hz ⊢
    · omega
    · rw [hz.2]
    · omega
    · rw [hz.2]

/-- A positive number that is printed is neither `0` nor negative. -/
theorem digits_head {v : Nat} {rest : Bytes} (hv : 0 < v) : digits v ≠ 48 :: rest ∧ digits v ≠ 45 :: rest := by
  obtain ⟨c, tail, hdigits, hc, -⟩ := digits_pos hv
  rw [hdigits]
  constructor <;> rintro h <;> obtain ⟨rfl, -⟩ := List.cons.inj h <;> exact absurd hc (by decide)

/-- **Parsing.** Exactly the decimal digits of a `long long` are parsed, and to their value: no leading zeros,
no plus sign, no `-0`, nothing behind the digits, nothing out of range. -/
theorem string2ll_eq_some_iff (s : Bytes) (z : Int) :
    string2ll s = some z ↔ s = decimal z ∧ -2 ^ 63 ≤ z ∧ z < 2 ^ 63 := by
  constructor
  · intro h
    unfold string2ll at h
    split at h
    · cases h
    split at h
    · next hzero =>
        obtain rfl := Option.some.inj h
        exact ⟨hzero, by norm_num, by norm_num⟩
    split at h
    · obtain ⟨v, hv, rfl, hle, rfl⟩ := string2llDigits_some_iff.mp h
      refine ⟨?_, by omega, by omega⟩
      rw [decimal, if_pos (by omega), Int.natAbs_neg, Int.natAbs_natCast]
    · obtain ⟨v, hv, rfl, hlt, rfl⟩ := string2llDigits_some_iff.mp h
      refine ⟨?_, by omega, by omega⟩
      rw [decimal, if_neg (by omega), Int.natAbs_natCast]
  · rintro ⟨rfl, hlow, hhigh⟩
    rcases lt_trichotomy z 0 with hneg | rfl | hpos
    · have hdigits : string2llDigits true (digits z.natAbs) = some z :=
        string2llDigits_some_iff.mpr ⟨z.natAbs, by omega, rfl, by omega, by omega⟩
      have hshort := @length_digits_le z.natAbs 19 (by omega) (by omega)
      rw [decimal, if_pos hneg, string2ll, if_neg, if_neg]
      · exact hdigits
      · simp [digits_ne_nil]
      · simp [longStrSize]
        omega
    · rfl
    · have hdigits : string2llDigits false (digits z.natAbs) = some z :=
        string2llDigits_some_iff.mpr ⟨z.natAbs, by omega, rfl, by omega, by omega⟩
      have hlen := @length_digits_le z.natAbs 19 (by omega) (by omega)
      rw [decimal, if_neg (by omega), string2ll, if_neg, if_neg]
      · exact hdigits
      · exact (@digits_head z.natAbs [] (by omega)).1
      · simp [longStrSize, digits_ne_nil]
        omega
      · exact fun rest hrest => (@digits_head z.natAbs rest (by omega)).2 hrest

end WasiPorts.Redis
